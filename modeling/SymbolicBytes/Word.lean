import SymbolicBytes.Operator
/-!
# Instructions on words

Integer instructions and comparisons on words of any width. The fixed-width integers and the
pointer-sized ones both run here, so they cannot differ but in the width.

A word instruction ends in a word, in poison because a promise was broken or a shift was too wide,
or in one of the two ways in which a division has no result.
-/

namespace SymbolicBytes

/-- What an integer instruction comes to. -/
inductive WordResult (w : Nat) where
  /-- a word -/
  | value (bits : BitVec w)
  /-- a promise was broken -/
  | poison
  /-- the divisor is zero -/
  | divisionByZero
  /-- the quotient of a signed division does not fit -/
  | overflow
  deriving DecidableEq

namespace WordResult

/-- The word, unless a promise was broken. -/
def checked {w : Nat} (broken : Bool) (bits : BitVec w) : WordResult w :=
  if broken then poison else value bits

end WordResult

/-- The result of an integer operation on two words. -/
def IntOp.onWords {w : Nat} (op : IntOp) (x y : BitVec w) : WordResult w :=
  let s := y.toNat
  let lost := x >>> s <<< s != x
  match op with
  | .add nuw nsw => .checked (nuw && x.uaddOverflow y || nsw && x.saddOverflow y) (x + y)
  | .sub nuw nsw => .checked (nuw && x.usubOverflow y || nsw && x.ssubOverflow y) (x - y)
  | .mul nuw nsw => .checked (nuw && x.umulOverflow y || nsw && x.smulOverflow y) (x * y)
  | .shl nuw nsw =>
    if w ≤ s then .poison
    else .checked (nuw && x <<< s >>> s != x || nsw && (x <<< s).sshiftRight s != x) (x <<< s)
  | .lshr exact => if w ≤ s then .poison else .checked (exact && lost) (x >>> s)
  | .ashr exact => if w ≤ s then .poison else .checked (exact && lost) (x.sshiftRight s)
  | .udiv exact => if y = 0 then .divisionByZero else .checked (exact && x % y != 0) (x / y)
  | .urem => if y = 0 then .divisionByZero else .value (x % y)
  | .sdiv exact =>
    if y = 0 then .divisionByZero
    else if x = BitVec.intMin w ∧ y = BitVec.allOnes w then .overflow
    else .checked (exact && x.srem y != 0) (x.sdiv y)
  | .srem =>
    if y = 0 then .divisionByZero
    else if x = BitVec.intMin w ∧ y = BitVec.allOnes w then .overflow
    else .value (x.srem y)
  | .and => .value (x &&& y)
  | .or => .value (x ||| y)
  | .xor => .value (x ^^^ y)

/-- Whether a comparison holds between two words. -/
def IntPred.onWords {w : Nat} (pred : IntPred) (x y : BitVec w) : Bool :=
  match pred with
  | .eq => x == y
  | .ne => x != y
  | .ugt => y.ult x
  | .uge => y.ule x
  | .ult => x.ult y
  | .ule => x.ule y
  | .sgt => y.slt x
  | .sge => y.sle x
  | .slt => x.slt y
  | .sle => x.sle y

end SymbolicBytes
