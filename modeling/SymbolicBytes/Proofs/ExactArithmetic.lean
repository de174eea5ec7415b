import Mathlib.Data.Int.Basic
import Mathlib.Tactic.NormNum
import SymbolicBytes.InstructionSet
/-!
# Integer instructions and exact arithmetic

What the integer instructions compute, said in unbounded integers. `IntOp.onIntegers` is the result
of an operation from the unsigned and the two's complement readings of its operands, with the
promises stated as ranges of the exact result and as remainders. On words of any width the
instructions give that result modulo a power of two (`IntOp.onWords_eq_toWord`).

An overflow flag of a word operation is clear exactly if the exact result is in range, and shifting
back gives the word again exactly if no set bit is lost; these are the lemmas the theorem rests on.
-/

namespace SymbolicBytes

/-! ## The reference -/

/-- Whether an integer is an unsigned number of `w` bits. -/
def FitsUnsigned (w : Nat) (int : Int) : Prop := 0 ≤ int ∧ int ≤ 2 ^ w - 1

/-- Whether an integer is a two's complement number of `w` bits. -/
def FitsSigned (w : Nat) (int : Int) : Prop := -2 ^ (w - 1) ≤ int ∧ int ≤ 2 ^ (w - 1) - 1

instance (w : Nat) (int : Int) : Decidable (FitsUnsigned w int) :=
  inferInstanceAs (Decidable (_ ∧ _))

instance (w : Nat) (int : Int) : Decidable (FitsSigned w int) :=
  inferInstanceAs (Decidable (_ ∧ _))

/-- What an integer operation comes to in unbounded integers. -/
inductive ExactResult where
  /-- the exact result -/
  | value (int : Int)
  /-- a promise was broken, or a shift was too wide -/
  | poison
  /-- the divisor is zero -/
  | divisionByZero
  /-- the least number of the width was divided by minus one -/
  | overflow

namespace ExactResult

/-- The exact result on unsigned numbers, if it is in the ranges that were promised: the unsigned
result in that of unsigned numbers, and the signed result in that of signed ones. -/
def inRange (w : Nat) (nuw nsw : Bool) (unsigned signed : Int) : ExactResult :=
  if nuw ∧ ¬ FitsUnsigned w unsigned ∨ nsw ∧ ¬ FitsSigned w signed then poison else value unsigned

/-- The quotient, if there is no remainder or none was promised not to be there. -/
def quotient (exact : Bool) (quotient remainder : Int) : ExactResult :=
  if exact ∧ remainder ≠ 0 then poison else value quotient

/-- The result as a word: the exact result modulo a power of two. -/
def toWord (w : Nat) : ExactResult → WordResult w
  | value int => .value (BitVec.ofInt w int)
  | poison => .poison
  | divisionByZero => .divisionByZero
  | overflow => .overflow

end ExactResult

/-- The result of an integer operation on numbers of `w` bits in unbounded integers, from the
unsigned readings `ux` and `uy` and the two's complement readings `sx` and `sy` of the operands. -/
def IntOp.onIntegers (w : Nat) (op : IntOp) (ux uy : Nat) (sx sy : Int) : ExactResult :=
  match op with
  | .add nuw nsw => .inRange w nuw nsw (ux + uy) (sx + sy)
  | .sub nuw nsw => .inRange w nuw nsw (ux - uy) (sx - sy)
  | .mul nuw nsw => .inRange w nuw nsw (ux * uy) (sx * sy)
  | .shl nuw nsw => if w ≤ uy then .poison else .inRange w nuw nsw (ux * 2 ^ uy) (sx * 2 ^ uy)
  | .lshr exact => if w ≤ uy then .poison else .quotient exact (ux / 2 ^ uy) (ux % 2 ^ uy)
  | .ashr exact => if w ≤ uy then .poison else .quotient exact (sx / 2 ^ uy) (sx % 2 ^ uy)
  | .udiv exact => if uy = 0 then .divisionByZero else .quotient exact (ux / uy) (ux % uy)
  | .urem => if uy = 0 then .divisionByZero else .value (ux % uy)
  | .sdiv exact =>
    if sy = 0 then .divisionByZero
    else if sx = -2 ^ (w - 1) ∧ sy = -1 then .overflow
    else .quotient exact (sx.tdiv sy) (sx.tmod sy)
  | .srem =>
    if sy = 0 then .divisionByZero
    else if sx = -2 ^ (w - 1) ∧ sy = -1 then .overflow
    else .value (sx.tmod sy)
  | .and => .value (ux &&& uy : Nat)
  | .or => .value (ux ||| uy : Nat)
  | .xor => .value (ux ^^^ uy : Nat)

section Words

variable {w : Nat}

/-! ## Ranges -/

theorem fitsUnsigned_natCast_iff {n : Nat} : FitsUnsigned w n ↔ n < 2 ^ w := by
  have hcast : ((2 ^ w : Nat) : Int) = 2 ^ w := Int.natCast_pow 2 w
  simp only [FitsUnsigned]
  omega

theorem fitsUnsigned_toNat (x : BitVec w) : FitsUnsigned w x.toNat :=
  fitsUnsigned_natCast_iff.2 x.isLt

theorem fitsSigned_toInt (x : BitVec w) : FitsSigned w x.toInt := ⟨x.le_toInt, x.toInt_le⟩

/-- What is in range at a width is in range at every larger width, so what fits a word fits a
register that holds it. -/
theorem fitsSigned_mono {n : Nat} {int : Int} (hn : w ≤ n) (h : FitsSigned w int) :
    FitsSigned n int := by
  have hpow : (2 : Int) ^ (w - 1) ≤ 2 ^ (n - 1) :=
    pow_le_pow_right₀ (by decide) (Nat.sub_le_sub_right hn 1)
  obtain ⟨hlow, hhigh⟩ := h
  exact ⟨by omega, by omega⟩

theorem toInt_ofInt_of_fits (hw : 0 < w) {int : Int} (h : FitsSigned w int) :
    (BitVec.ofInt w int).toInt = int := by
  obtain ⟨v, rfl⟩ := Nat.exists_eq_add_of_lt hw
  obtain ⟨hlow, hhigh⟩ := h
  have hpow : (2 : Int) ^ (0 + v + 1) = 2 * 2 ^ (0 + v + 1 - 1) := by
    rw [Nat.add_sub_cancel, Int.pow_succ, Int.mul_comm]
  rw [BitVec.toInt_ofInt]
  apply Int.bmod_eq_of_le <;> push_cast <;> omega

/-! ## Overflow -/

theorem uaddOverflow_eq_false_iff {x y : BitVec w} :
    x.uaddOverflow y = false ↔ FitsUnsigned w (x.toNat + y.toNat) := by
  rw [← Int.natCast_add, fitsUnsigned_natCast_iff]
  simp [BitVec.uaddOverflow]

theorem usubOverflow_eq_false_iff {x y : BitVec w} :
    x.usubOverflow y = false ↔ FitsUnsigned w (x.toNat - y.toNat) := by
  have hx := (fitsUnsigned_toNat x).2
  simp only [BitVec.usubOverflow, decide_eq_false_iff_not, FitsUnsigned]
  omega

theorem umulOverflow_eq_false_iff {x y : BitVec w} :
    x.umulOverflow y = false ↔ FitsUnsigned w (x.toNat * y.toNat) := by
  rw [← Int.natCast_mul, fitsUnsigned_natCast_iff]
  simp [BitVec.umulOverflow]

theorem saddOverflow_eq_false_iff {x y : BitVec w} :
    x.saddOverflow y = false ↔ FitsSigned w (x.toInt + y.toInt) := by
  simp only [BitVec.saddOverflow, Bool.or_eq_false_iff, decide_eq_false_iff_not, FitsSigned]
  omega

theorem ssubOverflow_eq_false_iff {x y : BitVec w} :
    x.ssubOverflow y = false ↔ FitsSigned w (x.toInt - y.toInt) := by
  simp only [BitVec.ssubOverflow, Bool.or_eq_false_iff, decide_eq_false_iff_not, FitsSigned]
  omega

theorem smulOverflow_eq_false_iff {x y : BitVec w} :
    x.smulOverflow y = false ↔ FitsSigned w (x.toInt * y.toInt) := by
  simp only [BitVec.smulOverflow, Bool.or_eq_false_iff, decide_eq_false_iff_not, FitsSigned]
  omega

/-! ## Shifts -/

variable {x y : BitVec w} {s : Nat}

/-- Shifting left and back loses nothing of the unsigned reading if the shifted number fits, so the
promise not to wrap can be checked without a wider register. -/
theorem shiftLeft_ushiftRight_eq_iff (hs : s < w) :
    x <<< s >>> s = x ↔ FitsUnsigned w (x.toNat * 2 ^ s) := by
  obtain ⟨v, rfl⟩ := Nat.exists_eq_add_of_lt hs
  rw [← BitVec.toNat_inj]
  have hpow : 2 ^ (s + v + 1) = 2 ^ s * 2 ^ (v + 1) := by rw [← Nat.pow_add]; rfl
  have hcast : ((x.toNat : Int) * 2 ^ s) = ((2 ^ s * x.toNat : Nat) : Int) := by
    push_cast
    exact Int.mul_comm ..
  rw [hcast, fitsUnsigned_natCast_iff, BitVec.toNat_ushiftRight, BitVec.toNat_shiftLeft,
    Nat.shiftRight_eq_div_pow, Nat.shiftLeft_eq, hpow, Nat.mul_comm x.toNat,
    Nat.mul_mod_mul_left, Nat.mul_div_cancel_left _ (Nat.two_pow_pos s),
    Nat.mul_lt_mul_left (Nat.two_pow_pos s)]
  exact Nat.mod_eq_iff_lt (Nat.two_pow_pos _).ne'

theorem toInt_shiftLeft_eq (x : BitVec w) (s : Nat) :
    (x <<< s).toInt = (x.toInt * 2 ^ s).bmod (2 ^ w) := by
  have hcast : ((x.toNat <<< s : Nat) : Int) = x.toNat * 2 ^ s := by
    rw [Nat.shiftLeft_eq]
    push_cast
    rfl
  rw [BitVec.toInt_shiftLeft, BitVec.toInt_eq_toNat_bmod, hcast, Int.bmod_mul_bmod]

/-- Shifting left and back loses nothing of the signed reading if the shifted number fits, where the
way back copies the sign. -/
theorem shiftLeft_sshiftRight_eq_iff (hs : s < w) :
    (x <<< s).sshiftRight s = x ↔ FitsSigned w (x.toInt * 2 ^ s) := by
  have hpos : (2 : Int) ^ s ≠ 0 := Int.pow_ne_zero (by decide)
  rw [← BitVec.toInt_inj, BitVec.toInt_sshiftRight, Int.shiftRight_eq_div_pow]
  constructor
  · intro h
    -- what is shifted left is a multiple of the power, so shifting back is exact
    have hdvd : (2 : Int) ^ s ∣ (x <<< s).toInt := by
      have hw : (2 : Int) ^ s ∣ ((2 ^ w : Nat) : Int) := by
        push_cast
        exact pow_dvd_pow _ hs.le
      rw [toInt_shiftLeft_eq, Int.bmod_eq_self_sub_mul_bdiv]
      exact Int.dvd_sub (Int.dvd_mul_left ..) (Int.dvd_mul_of_dvd_left hw)
    have hback := Int.ediv_mul_cancel hdvd
    push_cast at h
    rw [h] at hback
    rw [hback]
    exact fitsSigned_toInt _
  · intro h
    have hfits := toInt_ofInt_of_fits (Nat.zero_lt_of_lt hs) h
    rw [BitVec.toInt_ofInt] at hfits
    rw [toInt_shiftLeft_eq, hfits]
    push_cast
    exact Int.mul_ediv_cancel _ hpos

/-- Shifting right and back loses nothing if there is no remainder. -/
theorem ushiftRight_shiftLeft_eq_iff : x >>> s <<< s = x ↔ x.toNat % 2 ^ s = 0 := by
  have hle : x.toNat / 2 ^ s * 2 ^ s < 2 ^ w := Nat.lt_of_le_of_lt (Nat.div_mul_le_self ..) x.isLt
  have hdiv := Nat.div_add_mod' x.toNat (2 ^ s)
  rw [← BitVec.toNat_inj, BitVec.toNat_shiftLeft, BitVec.toNat_ushiftRight, Nat.shiftLeft_eq,
    Nat.shiftRight_eq_div_pow, Nat.mod_eq_of_lt hle]
  omega

/-- Of a number and its two's complement reading, the low bits are the same. -/
theorem toInt_emod_two_pow (hs : s ≤ w) : x.toInt % 2 ^ s = (x.toNat : Int) % 2 ^ s := by
  have hw : (2 : Int) ^ s ∣ ((2 ^ w : Nat) : Int) := by
    push_cast
    exact pow_dvd_pow _ hs
  rw [BitVec.toInt_eq_toNat_bmod, Int.emod_eq_emod_iff_emod_sub_eq_zero]
  exact Int.emod_eq_zero_of_dvd (Int.dvd_trans hw Int.dvd_bmod_sub_self)

/-! ## Words as remainders -/

theorem ofInt_toNat (x : BitVec w) : BitVec.ofInt w x.toNat = x := by
  rw [BitVec.ofInt_natCast, BitVec.ofNat_toNat, BitVec.setWidth_eq]

theorem ofInt_sub (a b : Int) : BitVec.ofInt w (a - b) = BitVec.ofInt w a - BitVec.ofInt w b := by
  rw [Int.sub_eq_add_neg, BitVec.ofInt_add, BitVec.ofInt_neg, BitVec.sub_eq_add_neg]

theorem shiftLeft_eq_ofInt (x : BitVec w) (s : Nat) :
    x <<< s = BitVec.ofInt w (x.toNat * 2 ^ s) := by
  have hcast : (x.toNat : Int) * 2 ^ s = ((x.toNat <<< s : Nat) : Int) := by
    rw [Nat.shiftLeft_eq]
    push_cast
    rfl
  rw [hcast, BitVec.ofInt_natCast, ← BitVec.toNat_inj, BitVec.toNat_shiftLeft, BitVec.toNat_ofNat]

theorem setWidth_ofInt {n : Nat} (hn : w ≤ n) (int : Int) :
    (BitVec.ofInt n int).setWidth w = BitVec.ofInt w int := by
  have hdvd : ((2 ^ w : Nat) : Int) ∣ ((2 ^ n : Nat) : Int) := by
    exact_mod_cast Nat.pow_dvd_pow 2 hn
  have hpos : ((2 ^ n : Nat) : Int) ≠ 0 := by
    exact_mod_cast (Nat.two_pow_pos n).ne'
  apply BitVec.eq_of_toNat_eq
  rw [BitVec.toNat_setWidth, BitVec.toNat_ofInt, BitVec.toNat_ofInt,
    ← Int.emod_emod_of_dvd int hdvd, Int.toNat_emod (Int.emod_nonneg _ hpos) (Int.natCast_nonneg _),
    Int.toNat_natCast]

/-- The low bits of a word are its two's complement reading modulo a power of two. -/
theorem setWidth_eq_ofInt {n : Nat} (hn : w ≤ n) (bits : BitVec n) :
    bits.setWidth w = BitVec.ofInt w bits.toInt := by
  rw [← setWidth_ofInt hn, BitVec.ofInt_toInt]

/-- The low bits of a word are its unsigned reading modulo a power of two. -/
theorem setWidth_eq_ofInt_toNat {n : Nat} (hn : w ≤ n) (bits : BitVec n) :
    bits.setWidth w = BitVec.ofInt w bits.toNat := by
  rw [← setWidth_ofInt hn, ofInt_toNat]

theorem setWidth_shiftLeft {n : Nat} (hn : w ≤ n) (x : BitVec w) (s : Nat) :
    (x.setWidth n <<< s).setWidth w = x <<< s := by
  rw [shiftLeft_eq_ofInt, shiftLeft_eq_ofInt, setWidth_ofInt hn, BitVec.toNat_setWidth_of_le hn]

theorem eq_zero_iff_toInt (x : BitVec w) : x = 0 ↔ x.toInt = 0 := by
  have hzero : (0 : BitVec w).toInt = 0 := BitVec.toInt_zero
  rw [← BitVec.toInt_inj, hzero]

theorem eq_zero_iff_toNat (x : BitVec w) : x = 0 ↔ x.toNat = 0 := by
  have hzero : (0 : BitVec w).toNat = 0 := BitVec.toNat_zero
  rw [← BitVec.toNat_inj, hzero]

theorem ne_zero_eq_toNat (bits : BitVec w) :
    (bits != 0) = !decide ((bits.toNat : Int) = 0) := by
  rw [Bool.eq_iff_iff, bne_iff_ne, Ne, eq_zero_iff_toNat, Bool.not_eq_true',
    decide_eq_false_iff_not, Int.natCast_eq_zero]

theorem ne_zero_eq_toInt (bits : BitVec w) : (bits != 0) = !decide (bits.toInt = 0) := by
  rw [Bool.eq_iff_iff, bne_iff_ne, Ne, eq_zero_iff_toInt, Bool.not_eq_true',
    decide_eq_false_iff_not]

theorem eq_intMin_iff (hw : 0 < w) (x : BitVec w) :
    x = BitVec.intMin w ↔ x.toInt = -2 ^ (w - 1) := by
  have hlt : 2 ^ (w - 1) < 2 ^ w := Nat.pow_lt_pow_right (by decide) (by omega)
  rw [← BitVec.toInt_inj, BitVec.toInt_intMin, Nat.mod_eq_of_lt hlt]
  push_cast
  rfl

theorem eq_allOnes_iff (hw : 0 < w) (x : BitVec w) : x = BitVec.allOnes w ↔ x.toInt = -1 := by
  rw [← BitVec.toInt_inj, BitVec.toInt_allOnes, if_pos hw]

/-! ## Operations on words -/

/-- A word with its two overflow flags is the exact result in its ranges, if each flag is clear
where its reading is in range. -/
theorem checked_eq_inRange {nuw nsw unsignedOverflow signedOverflow : Bool} {bits : BitVec w}
    {unsigned signed : Int} (hunsigned : unsignedOverflow = false ↔ FitsUnsigned w unsigned)
    (hsigned : signedOverflow = false ↔ FitsSigned w signed)
    (hbits : bits = BitVec.ofInt w unsigned) :
    WordResult.checked (nuw && unsignedOverflow || nsw && signedOverflow) bits =
      (ExactResult.inRange w nuw nsw unsigned signed).toWord w := by
  simp only [WordResult.checked, ExactResult.inRange, ← hunsigned, ← hsigned, Bool.not_eq_false,
    Bool.or_eq_true, Bool.and_eq_true, hbits]
  split <;> rfl

/-- A quotient with the flag for lost bits is the exact quotient, if the flag is clear where there
is no remainder. -/
theorem checked_eq_quotient {exact lost : Bool} {bits : BitVec w} {quotient remainder : Int}
    (hlost : lost = false ↔ remainder = 0) (hbits : bits = BitVec.ofInt w quotient) :
    WordResult.checked (exact && lost) bits =
      (ExactResult.quotient exact quotient remainder).toWord w := by
  simp only [WordResult.checked, ExactResult.quotient, ne_eq, ← hlost, Bool.not_eq_false,
    Bool.and_eq_true, hbits]
  split <;> rfl

/-- On words of any width, the integer operations are those on unbounded integers modulo a power of
two. So every other way of computing them has only to be compared with the unbounded one. -/
theorem IntOp.onWords_eq_toWord (hw : 0 < w) (op : IntOp) (x y : BitVec w) :
    op.onWords x y = (op.onIntegers w x.toNat y.toNat x.toInt y.toInt).toWord w := by
  have hlost : (x >>> y.toNat <<< y.toNat != x) = false ↔
      ((x.toNat : Int) % 2 ^ y.toNat) = 0 := by
    rw [bne_eq_false_iff_eq, ushiftRight_shiftLeft_eq_iff]
    norm_cast
  cases op with
  | add nuw nsw =>
    exact checked_eq_inRange uaddOverflow_eq_false_iff saddOverflow_eq_false_iff
      (by rw [BitVec.ofInt_add, ofInt_toNat, ofInt_toNat])
  | sub nuw nsw =>
    exact checked_eq_inRange usubOverflow_eq_false_iff ssubOverflow_eq_false_iff
      (by rw [ofInt_sub, ofInt_toNat, ofInt_toNat])
  | mul nuw nsw =>
    exact checked_eq_inRange umulOverflow_eq_false_iff smulOverflow_eq_false_iff
      (by rw [BitVec.ofInt_mul, ofInt_toNat, ofInt_toNat])
  | shl nuw nsw =>
    simp only [onWords, onIntegers]
    split
    · rfl
    · rename_i hs
      have hs := Nat.lt_of_not_le hs
      apply checked_eq_inRange
      · rw [bne_eq_false_iff_eq, shiftLeft_ushiftRight_eq_iff hs]
      · rw [bne_eq_false_iff_eq, shiftLeft_sshiftRight_eq_iff hs]
      · exact shiftLeft_eq_ofInt x y.toNat
  | lshr exact =>
    simp only [onWords, onIntegers]
    split
    · rfl
    · apply checked_eq_quotient hlost
      rw [← ofInt_toNat (x >>> y.toNat), BitVec.toNat_ushiftRight, Nat.shiftRight_eq_div_pow]
      push_cast
      rfl
  | ashr exact =>
    simp only [onWords, onIntegers]
    split
    · rfl
    · rename_i hs
      -- the lost bits are those of the unsigned reading, the quotient is of the signed one
      apply checked_eq_quotient
      · rw [hlost, toInt_emod_two_pow (Nat.le_of_not_le hs)]
      · rw [← BitVec.ofInt_toInt (x := x.sshiftRight y.toNat), BitVec.toInt_sshiftRight,
          Int.shiftRight_eq_div_pow]
        push_cast
        rfl
  | udiv exact =>
    simp only [onWords, onIntegers, eq_zero_iff_toNat y]
    split
    · rfl
    · apply checked_eq_quotient
      · rw [bne_eq_false_iff_eq, eq_zero_iff_toNat, BitVec.toNat_umod]
        norm_cast
      · rw [← ofInt_toNat (x / y), BitVec.toNat_udiv]
        push_cast
        rfl
  | urem =>
    simp only [onWords, onIntegers, eq_zero_iff_toNat y]
    split
    · rfl
    · rw [← ofInt_toNat (x % y), BitVec.toNat_umod]
      push_cast
      rfl
  | sdiv exact =>
    -- apart from zero, the one quotient that is no word is that of the least number and -1
    simp only [onWords, onIntegers, eq_zero_iff_toInt y, eq_intMin_iff hw, eq_allOnes_iff hw]
    split
    · rfl
    · split
      · rfl
      · apply checked_eq_quotient
        · rw [bne_eq_false_iff_eq, eq_zero_iff_toInt, BitVec.toInt_srem]
        · rw [← BitVec.toInt_inj, BitVec.toInt_sdiv, BitVec.toInt_ofInt]
  | srem =>
    simp only [onWords, onIntegers, eq_zero_iff_toInt y, eq_intMin_iff hw, eq_allOnes_iff hw]
    split
    · rfl
    · split
      · rfl
      · rw [← BitVec.ofInt_toInt (x := x.srem y), BitVec.toInt_srem]
        rfl
  | and =>
    simp only [onWords, onIntegers]
    rw [← BitVec.toNat_and]
    simp only [ExactResult.toWord, ofInt_toNat]
  | or =>
    simp only [onWords, onIntegers]
    rw [← BitVec.toNat_or]
    simp only [ExactResult.toWord, ofInt_toNat]
  | xor =>
    simp only [onWords, onIntegers]
    rw [← BitVec.toNat_xor]
    simp only [ExactResult.toWord, ofInt_toNat]

end Words

end SymbolicBytes
