import SymbolicBytes.Proofs.Integers
import SymbolicBytes.Proofs.RegisterArithmetic
/-!
# Pointer-sized arithmetic

Integer operations on pointer-sized integers. These are integers of any size and sign which stand
for their low bits. `IntOp.onUnbounded` computes on them as it is done without registers: both
operands are wrapped to the unsigned and to the two's complement range, a result is in a range if
wrapping does not change it, and the result is wrapped at the end. It gives the exact result modulo
a power of two (`IntOp.onUnbounded_eq`).

So do the instructions, at any width (`IntOp.exactOnPointerSized`). Their results are unsigned, they
depend on nothing but the low bits of the operands, and at a width that integers of a fixed width
have they are the results on those.
-/

namespace SymbolicBytes

namespace Unbounded

/-! ## Wrapping -/

/-- Whether an integer is changed by wrapping it to the unsigned range. -/
def leavesUnsigned (bits : Nat) (int : Int) : Bool := int != wrapUnsigned bits int

/-- Whether an integer is changed by wrapping it to the two's complement range. -/
def leavesSigned (bits : Nat) (int : Int) : Bool := int != wrapSigned bits int

/-- The least integer of the two's complement range. -/
def least (bits : Nat) : Int := wrapSigned bits ((1 : Int) <<< (bits - 1))

/-- The number of places to shift by, if it is below the width. -/
def shiftAmount? (bits : Nat) (amount : Int) : Option Nat :=
  if amount < bits then some amount.toNat else none

/-- Poison if a promise is broken, and the low bits of the result otherwise. -/
def keep (bits : Nat) (broken : Bool) (int : Int) : ExactResult :=
  if broken then .poison else .value (wrapUnsigned bits int)

end Unbounded

open Unbounded in
/-- The result of an integer operation on integers of any size that stand for their low bits. -/
def IntOp.onUnbounded (bits : Nat) (op : IntOp) (x y : Int) : ExactResult :=
  let ux := wrapUnsigned bits x
  let uy := wrapUnsigned bits y
  let sx := wrapSigned bits x
  let sy := wrapSigned bits y
  match op with
  | .add nuw nsw =>
    keep bits (nuw && leavesUnsigned bits (ux + uy) || nsw && leavesSigned bits (sx + sy)) (ux + uy)
  | .sub nuw nsw => keep bits (nuw && ux < uy || nsw && leavesSigned bits (sx - sy)) (ux - uy)
  | .mul nuw nsw =>
    keep bits (nuw && leavesUnsigned bits (ux * uy) || nsw && leavesSigned bits (sx * sy)) (ux * uy)
  | .shl nuw nsw =>
    match shiftAmount? bits uy with
    | none => .poison
    | some amount =>
      let r := wrapUnsigned bits (ux <<< amount)
      keep bits (nuw && r >>> amount != ux || nsw && wrapSigned bits r >>> amount != sx) r
  | .lshr exact =>
    match shiftAmount? bits uy with
    | none => .poison
    | some amount => keep bits (exact && wrapUnsigned amount ux != 0) (ux >>> amount)
  | .ashr exact =>
    match shiftAmount? bits uy with
    | none => .poison
    | some amount => keep bits (exact && wrapUnsigned amount ux != 0) (sx >>> amount)
  | .udiv exact =>
    if uy = 0 then .divisionByZero else keep bits (exact && ux.tmod uy != 0) (ux.tdiv uy)
  | .urem => if uy = 0 then .divisionByZero else keep bits false (ux.tmod uy)
  | .sdiv exact =>
    if uy = 0 then .divisionByZero
    else if sx = least bits ∧ sy = -1 then .overflow
    else keep bits (exact && sx.tmod sy != 0) (sx.tdiv sy)
  | .srem =>
    if uy = 0 then .divisionByZero
    else if sx = least bits ∧ sy = -1 then .overflow
    else keep bits false (sx.tmod sy)
  | .and => keep bits false (ux.toNat &&& uy.toNat : Nat)
  | .or => keep bits false (ux.toNat ||| uy.toNat : Nat)
  | .xor => keep bits false (ux.toNat ^^^ uy.toNat : Nat)

/-- The low bits of an exact result. -/
def ExactResult.wrapped (bits : Nat) : ExactResult → ExactResult
  | value int => .value (wrapUnsigned bits int)
  | poison => .poison
  | divisionByZero => .divisionByZero
  | overflow => .overflow

namespace Unbounded

variable {n : Nat}

/-! ## Checks -/

/-- Wrapping to the unsigned range changes exactly the integers that are not in it. -/
theorem leavesUnsigned_eq (int : Int) : leavesUnsigned n int = !decide (FitsUnsigned n int) := by
  have hpos : (0 : Int) < 2 ^ n := Int.pow_pos (by decide)
  have hnonneg := Int.emod_nonneg int hpos.ne'
  have hlt := Int.emod_lt_of_pos int hpos
  have hwrap : int = int % 2 ^ n ↔ FitsUnsigned n int := by
    constructor
    · intro h
      exact ⟨by omega, by omega⟩
    · rintro ⟨hlow, hhigh⟩
      exact (Int.emod_eq_of_lt hlow (by omega)).symm
  rw [leavesUnsigned, wrapUnsigned_eq_emod, Bool.eq_iff_iff, bne_iff_ne, Ne, hwrap,
    Bool.not_eq_true', decide_eq_false_iff_not]

/-- Wrapping to the two's complement range changes exactly the integers that are not in it. -/
theorem leavesSigned_eq (hn : 0 < n) (int : Int) :
    leavesSigned n int = !decide (FitsSigned n int) := by
  have hwrap : int = wrapSigned n int ↔ FitsSigned n int := by
    constructor
    · intro h
      rw [h]
      exact fitsSigned_toInt _
    · intro h
      exact (toInt_ofInt_of_fits hn h).symm
  rw [leavesSigned, Bool.eq_iff_iff, bne_iff_ne, Ne, hwrap, Bool.not_eq_true',
    decide_eq_false_iff_not]

theorem least_eq (hn : 0 < n) : least n = -2 ^ (n - 1) := by
  have hpow : (1 : Int) <<< (n - 1) = ((2 ^ (n - 1) : Nat) : Int) := by
    rw [Int.shiftLeft_eq, Int.one_mul]
    push_cast
    rfl
  refine (eq_intMin_iff hn _).1 ?_
  rw [hpow, BitVec.ofInt_natCast, ← BitVec.toNat_inj, BitVec.toNat_ofNat, BitVec.toNat_intMin]

theorem shiftAmount?_toNat (y : BitVec n) :
    shiftAmount? n y.toNat = if n ≤ y.toNat then none else some y.toNat := by
  rw [shiftAmount?]
  split <;> split <;> first | omega | rfl

/-- The low bits and the two range checks, made on an unbounded sum or product, are the exact result
in its ranges. -/
theorem keep_eq_inRange {nuw nsw unsigned signed : Bool} {int u s : Int}
    (hunsigned : unsigned = !decide (FitsUnsigned n u))
    (hsigned : signed = !decide (FitsSigned n s)) (hint : wrapUnsigned n int = wrapUnsigned n u) :
    keep n (nuw && unsigned || nsw && signed) int =
      (ExactResult.inRange n nuw nsw u s).wrapped n := by
  subst hunsigned hsigned
  by_cases hu : FitsUnsigned n u <;> by_cases hs : FitsSigned n s <;> cases nuw <;> cases nsw <;>
    simp [keep, ExactResult.inRange, ExactResult.wrapped, hint, hu, hs]

theorem keep_eq_quotient {exact lost : Bool} {q r : Int} (hlost : lost = !decide (r = 0)) :
    keep n (exact && lost) q = (ExactResult.quotient exact q r).wrapped n := by
  subst hlost
  by_cases hr : r = 0 <;> cases exact <;>
    simp [keep, ExactResult.quotient, ExactResult.wrapped, hr]

/-- Shifting left and back changes the unsigned reading if the shifted number does not fit. -/
theorem shiftedBack_unsigned {s : Nat} (hs : s < n) (x : BitVec n) :
    (((x <<< s).toNat : Int) >>> s != x.toNat) = !decide (FitsUnsigned n (x.toNat * 2 ^ s)) := by
  have hback : ((x <<< s).toNat : Int) >>> s = x.toNat ↔ x <<< s >>> s = x := by
    rw [← BitVec.toNat_inj, BitVec.toNat_ushiftRight, ← Int.natCast_inj]
    rfl
  rw [Bool.eq_iff_iff, bne_iff_ne, Ne, hback, shiftLeft_ushiftRight_eq_iff hs, Bool.not_eq_true',
    decide_eq_false_iff_not]

/-- Shifting left and back changes the signed reading if the shifted number does not fit. -/
theorem shiftedBack_signed {s : Nat} (hs : s < n) (x : BitVec n) :
    ((x <<< s).toInt >>> s != x.toInt) = !decide (FitsSigned n (x.toInt * 2 ^ s)) := by
  have hback : (x <<< s).toInt >>> s = x.toInt ↔ (x <<< s).sshiftRight s = x := by
    rw [← BitVec.toInt_inj, BitVec.toInt_sshiftRight]
  rw [Bool.eq_iff_iff, bne_iff_ne, Ne, hback, shiftLeft_sshiftRight_eq_iff hs, Bool.not_eq_true',
    decide_eq_false_iff_not]

theorem shiftRight_eq_ediv (int : Int) (s : Nat) : int >>> s = int / 2 ^ s := by
  rw [Int.shiftRight_eq_div_pow]
  push_cast
  rfl

end Unbounded

/-! ## Operations -/

open Unbounded in
/-- Computed without registers, the result is the exact one modulo a power of two. Sums and products
may be made of either reading of the operands, which differ by a multiple of it. -/
theorem IntOp.onUnbounded_eq {n : Nat} (hn : 0 < n) (op : IntOp) (x y : Int) :
    op.onUnbounded n x y =
      (op.onIntegers n (BitVec.ofInt n x).toNat (BitVec.ofInt n y).toNat (BitVec.ofInt n x).toInt
        (BitVec.ofInt n y).toInt).wrapped n := by
  have hux : wrapUnsigned n x = (BitVec.ofInt n x).toNat := rfl
  have huy : wrapUnsigned n y = (BitVec.ofInt n y).toNat := rfl
  have hsx : wrapSigned n x = (BitVec.ofInt n x).toInt := rfl
  have hsy : wrapSigned n y = (BitVec.ofInt n y).toInt := rfl
  simp only [onUnbounded, hux, huy, hsx, hsy]
  -- from here on, only the low bits of the operands are used
  generalize BitVec.ofInt n x = x
  generalize BitVec.ofInt n y = y
  cases op with
  | add nuw nsw => exact keep_eq_inRange (leavesUnsigned_eq _) (leavesSigned_eq hn _) rfl
  | sub nuw nsw =>
    have hfits := usubOverflow_eq_false_iff (x := x) (y := y)
    rw [BitVec.usubOverflow, decide_eq_false_iff_not] at hfits
    refine keep_eq_inRange ?_ (leavesSigned_eq hn _) rfl
    simp only [← hfits, decide_not, Bool.not_not, Int.ofNat_lt]
  | mul nuw nsw => exact keep_eq_inRange (leavesUnsigned_eq _) (leavesSigned_eq hn _) rfl
  | shl nuw nsw =>
    simp only [onIntegers, shiftAmount?_toNat]
    by_cases hs : n ≤ y.toNat
    · rw [if_pos hs, if_pos hs]
      rfl
    · rw [if_neg hs, if_neg hs]
      have hs := Nat.lt_of_not_le hs
      have hshift : wrapUnsigned n ((x.toNat : Int) <<< y.toNat) = (x <<< y.toNat).toNat := by
        rw [wrapUnsigned, Int.shiftLeft_eq, ← shiftLeft_eq_ofInt]
      have hview : wrapSigned n (x <<< y.toNat).toNat = (x <<< y.toNat).toInt := by
        rw [wrapSigned, ofInt_toNat]
      simp only [hshift, hview]
      refine keep_eq_inRange (shiftedBack_unsigned hs x) (shiftedBack_signed hs x) ?_
      rw [wrapUnsigned, wrapUnsigned, ofInt_toNat, ← shiftLeft_eq_ofInt]
  | lshr exact =>
    simp only [onIntegers, shiftAmount?_toNat]
    by_cases hs : n ≤ y.toNat
    · rw [if_pos hs, if_pos hs]
      rfl
    · rw [if_neg hs, if_neg hs]
      simp only [wrapUnsigned_eq_emod, shiftRight_eq_ediv]
      exact keep_eq_quotient rfl
  | ashr exact =>
    simp only [onIntegers, shiftAmount?_toNat]
    by_cases hs : n ≤ y.toNat
    · rw [if_pos hs, if_pos hs]
      rfl
    · rw [if_neg hs, if_neg hs]
      simp only [wrapUnsigned_eq_emod, shiftRight_eq_ediv, toInt_emod_two_pow (Nat.le_of_not_le hs)]
      exact keep_eq_quotient rfl
  | udiv exact =>
    simp only [onIntegers, Int.natCast_eq_zero]
    split
    · rfl
    · exact keep_eq_quotient rfl
  | urem =>
    simp only [onIntegers, Int.natCast_eq_zero]
    split
    · rfl
    · rfl
  | sdiv exact =>
    simp only [onIntegers, Int.natCast_eq_zero, ← eq_zero_iff_toNat y, eq_zero_iff_toInt y,
      least_eq hn]
    split
    · rfl
    · split
      · rfl
      · exact keep_eq_quotient rfl
  | srem =>
    simp only [onIntegers, Int.natCast_eq_zero, ← eq_zero_iff_toNat y, eq_zero_iff_toInt y,
      least_eq hn]
    split
    · rfl
    · split
      · rfl
      · rfl
  | and => rfl
  | or => rfl
  | xor => rfl

/-! ## Instructions -/

/-- The outcome of an instruction on pointer-sized integers that an exact result stands for. -/
def ExactResult.pointerSized (n : Nat) (op : IntOp) (x : Int) : ExactResult → Outcome Value
  | value int => .ok (.iptr (int % 2 ^ n))
  | poison => .ok (.poison .iptr)
  | divisionByZero => .error .iptrDivisionByZero
  | overflow => .error (.divisionOverflow op.mnemonic (.iptr x))

/-- Whether two outcomes are the same value, or evaluation faults both. -/
inductive Outcome.SameOrFaults : Outcome Value → Outcome Value → Prop where
  /-- one and the same value -/
  | value (v : Value) : SameOrFaults (.ok v) (.ok v)
  /-- faults, which may name different operands -/
  | faults {f g : Fault} (hf : f.kind = .evaluation) (hg : g.kind = .evaluation) :
      SameOrFaults (.error f) (.error g)

/-- Whether an outcome on integers of a fixed width and one on pointer-sized integers are the same
number, poison both, or evaluation faults both. -/
inductive Outcome.SameNumber (w : IntWidth) : Outcome Value → Outcome Value → Prop where
  /-- the number that the bits are without a sign -/
  | number (bits : BitVec w.bits) : SameNumber w (.ok (.int ⟨w, bits⟩)) (.ok (.iptr bits.toNat))
  /-- poison, each of its own type -/
  | poison : SameNumber w (.ok (.poison (.int w.bits))) (.ok (.poison .iptr))
  /-- faults, which may be worded differently -/
  | faults {f g : Fault} (hf : f.kind = .evaluation) (hg : g.kind = .evaluation) :
      SameNumber w (.error f) (.error g)

/-- What is to be shown of an operation on two pointer-sized integers of `n` bits. -/
structure IntOp.ExactOnPointerSized (n : Nat) (op : IntOp) (x y : Int) : Prop where
  /-- the instruction gives the exact result on the readings of the low bits -/
  result : (InstructionSet.standard n).binary (.int op) (.iptr x) (.iptr y) =
    (op.onIntegers n (x % 2 ^ n).toNat (y % 2 ^ n).toNat (x.bmod (2 ^ n))
      (y.bmod (2 ^ n))).pointerSized n op x
  /-- computing on unbounded integers gives the low bits of that result -/
  unbounded : op.onUnbounded n x y =
    (op.onIntegers n (x % 2 ^ n).toNat (y % 2 ^ n).toNat (x.bmod (2 ^ n))
      (y.bmod (2 ^ n))).wrapped n
  /-- a result is poison or in the unsigned range -/
  range : ∀ d, (InstructionSet.standard n).binary (.int op) (.iptr x) (.iptr y) = .ok d →
    d = .poison .iptr ∨ ∃ int, d = .iptr int ∧ 0 ≤ int ∧ int < 2 ^ n
  /-- operands with the same low bits have the same outcome -/
  lowBits : ∀ x' y' : Int, x' % 2 ^ n = x % 2 ^ n → y' % 2 ^ n = y % 2 ^ n →
    ((InstructionSet.standard n).binary (.int op) (.iptr x') (.iptr y')).SameOrFaults
      ((InstructionSet.standard n).binary (.int op) (.iptr x) (.iptr y))
  /-- integers of a fixed width of `n` bits with these low bits have the same outcome -/
  fixedWidth : ∀ w : IntWidth, w.bits = n →
    ((InstructionSet.standard n).binary (.int op) (.int ⟨w, BitVec.ofInt w.bits x⟩)
        (.int ⟨w, BitVec.ofInt w.bits y⟩)).SameNumber w
      ((InstructionSet.standard n).binary (.int op) (.iptr x) (.iptr y))

/-- An instruction on pointer-sized integers gives the exact result on the readings of their low
bits, in unsigned form. -/
theorem IntOp.binary_iptr {n : Nat} (hn : 0 < n) (op : IntOp) (x y : Int) :
    (InstructionSet.standard n).binary (.int op) (.iptr x) (.iptr y) =
      (op.onIntegers n (BitVec.ofInt n x).toNat (BitVec.ofInt n y).toNat (BitVec.ofInt n x).toInt
        (BitVec.ofInt n y).toInt).pointerSized n op x := by
  change op.onScalars n (.iptr x) (.iptr y) = _
  rw [IntOp.onScalars, op.onWords_eq_toWord hn]
  cases op.onIntegers n (BitVec.ofInt n x).toNat (BitVec.ofInt n y).toNat (BitVec.ofInt n x).toInt
    (BitVec.ofInt n y).toInt with
  | value int =>
    have hvalue : ((BitVec.ofInt n int).toNat : Int) = int % 2 ^ n := wrapUnsigned_eq_emod n int
    simp only [ExactResult.toWord, ExactResult.pointerSized, hvalue]
  | _ => rfl

/-- A result is poison or an unsigned number of the width, though the operands may be any integers.
-/
theorem ExactResult.range_pointerSized {n : Nat} {op : IntOp} {x : Int} {r : ExactResult}
    {d : Value} (h : r.pointerSized n op x = .ok d) :
    d = .poison .iptr ∨ ∃ int, d = .iptr int ∧ 0 ≤ int ∧ int < 2 ^ n := by
  have hpos : (0 : Int) < 2 ^ n := Int.pow_pos (by decide)
  cases r with
  | value int =>
    cases h
    exact .inr ⟨_, rfl, Int.emod_nonneg int hpos.ne', Int.emod_lt_of_pos int hpos⟩
  | poison =>
    cases h
    exact .inl rfl
  | _ => cases h

/-- Of the operands, only a fault names more than their low bits, and whether there is one depends
on these. -/
theorem ExactResult.sameOrFaults_pointerSized (n : Nat) (op : IntOp) (x x' : Int)
    (r : ExactResult) : (r.pointerSized n op x').SameOrFaults (r.pointerSized n op x) := by
  cases r with
  | value int => exact .value _
  | poison => exact .value _
  | divisionByZero => exact .faults rfl rfl
  | overflow => exact .faults rfl rfl

/-- At a width that integers of a fixed width have, the result is the number that it is on those. -/
theorem ExactResult.sameNumber_pointerSized (op : IntOp) {w : IntWidth} (bits : BitVec w.bits)
    (x : Int) (r : ExactResult) :
    (r.outcome op bits).SameNumber w (r.pointerSized w.bits op x) := by
  cases r with
  | value int =>
    have hvalue : ((BitVec.ofInt w.bits int).toNat : Int) = int % 2 ^ w.bits :=
      wrapUnsigned_eq_emod w.bits int
    rw [ExactResult.pointerSized, ← hvalue]
    exact .number _
  | poison => exact .poison
  | divisionByZero => exact .faults rfl rfl
  | overflow => exact .faults rfl rfl

/-- An integer instruction on pointer-sized integers is exact at every width, from one bit on.
Nothing is asked of the operands, so the result of one instruction can be an operand of the next, as
can a number that was written out beyond the range. -/
theorem IntOp.exactOnPointerSized {n : Nat} (hn : 1 ≤ n) (op : IntOp) (x y : Int) :
    op.ExactOnPointerSized n x y := by
  have hbinary := op.binary_iptr hn
  constructor
  case result =>
    rw [hbinary, toNat_ofInt_eq, toNat_ofInt_eq, BitVec.toInt_ofInt, BitVec.toInt_ofInt]
  case unbounded =>
    rw [op.onUnbounded_eq hn, toNat_ofInt_eq, toNat_ofInt_eq, BitVec.toInt_ofInt,
      BitVec.toInt_ofInt]
  case range =>
    intro d hd
    rw [hbinary] at hd
    exact ExactResult.range_pointerSized hd
  case lowBits =>
    intro x' y' hx hy
    rw [hbinary, hbinary, ofInt_eq_of_emod_eq hx, ofInt_eq_of_emod_eq hy]
    exact ExactResult.sameOrFaults_pointerSized n op x x' _
  case fixedWidth =>
    rintro w rfl
    rw [hbinary, op.binary_int]
    exact ExactResult.sameNumber_pointerSized op _ x _

/-- A negative dividend and a divisor that is too large, which read as 24 and -1 in eight bits. -/
theorem IntOp.exactOnPointerSized_oversized :
    1 ≤ 8 ∧ (IntOp.sdiv false).ExactOnPointerSized 8 (-1000) 511 ∧
      (InstructionSet.standard 8).binary (.int (.sdiv false)) (.iptr (-1000)) (.iptr 511) =
        .ok (.iptr 232) :=
  ⟨by decide, IntOp.exactOnPointerSized (by decide) _ _ _, by decide⟩

end SymbolicBytes
