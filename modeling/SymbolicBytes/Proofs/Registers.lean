import Mathlib.Algebra.Order.Ring.Abs
import SymbolicBytes.Proofs.ExactArithmetic
/-!
# Machine registers

Arithmetic as a processor with registers of a fixed width does it when it is told to stop on every
step that has no proper result: a sum, a difference, a product or a negative that overflows, a shift
by the width or more, a division by zero, and the quotient of the least number by minus one. Such a
step traps, and gives `none`.

For every step there is a lemma that says when it does not trap and what it gives then. From them
follow the results of the short computations that integers of few bits need in wider registers: the
mask of the low bits (`mask_eq`), the extension of the sign (`extend_eq`), and the check of a signed
range (`outOfRange_eq`).
-/

namespace SymbolicBytes.Register

variable {n w : Nat} {x y : BitVec n}

/-! ## Steps -/

/-- The contents of a register, unless computing them traps. -/
def guarded (traps : Bool) (bits : BitVec n) : Option (BitVec n) :=
  if traps then none else some bits

/-- The sum of unsigned numbers. -/
def addU (x y : BitVec n) : Option (BitVec n) := guarded (x.uaddOverflow y) (x + y)

/-- The difference of unsigned numbers. -/
def subU (x y : BitVec n) : Option (BitVec n) := guarded (x.usubOverflow y) (x - y)

/-- The product of unsigned numbers. -/
def mulU (x y : BitVec n) : Option (BitVec n) := guarded (x.umulOverflow y) (x * y)

/-- The sum of signed numbers. -/
def addS (x y : BitVec n) : Option (BitVec n) := guarded (x.saddOverflow y) (x + y)

/-- The difference of signed numbers. -/
def subS (x y : BitVec n) : Option (BitVec n) := guarded (x.ssubOverflow y) (x - y)

/-- The product of signed numbers. -/
def mulS (x y : BitVec n) : Option (BitVec n) := guarded (x.smulOverflow y) (x * y)

/-- The negative of a signed number. -/
def negS (x : BitVec n) : Option (BitVec n) := guarded x.negOverflow (-x)

/-- The bits moved up by a number of places, which must be below the width. -/
def shiftL (x : BitVec n) (amount : Nat) : Option (BitVec n) :=
  guarded (decide (n ≤ amount)) (x <<< amount)

/-- The bits moved down by a number of places, with zeros from the top. -/
def shiftR (x : BitVec n) (amount : Nat) : Option (BitVec n) :=
  guarded (decide (n ≤ amount)) (x >>> amount)

/-- The bits moved down by a number of places, with copies of the sign from the top. -/
def shiftRS (x : BitVec n) (amount : Nat) : Option (BitVec n) :=
  guarded (decide (n ≤ amount)) (x.sshiftRight amount)

/-- The quotient of unsigned numbers. -/
def divU (x y : BitVec n) : Option (BitVec n) := guarded (y == 0) (x / y)

/-- The remainder of unsigned numbers. -/
def remU (x y : BitVec n) : Option (BitVec n) := guarded (y == 0) (x % y)

/-- Whether the division of signed numbers traps. -/
def divTraps (x y : BitVec n) : Bool := y == 0 || x == BitVec.intMin n && y == BitVec.allOnes n

/-- The quotient of signed numbers. -/
def divS (x y : BitVec n) : Option (BitVec n) := guarded (divTraps x y) (x.sdiv y)

/-- The remainder of signed numbers. -/
def remS (x y : BitVec n) : Option (BitVec n) := guarded (divTraps x y) (x.srem y)

/-- The difference of two counts of bits. -/
def countSub (a b : Nat) : Option Nat := if a < b then none else some (a - b)

theorem guarded_of_eq_false {traps : Bool} (h : traps = false) (bits : BitVec n) :
    guarded traps bits = some bits := by
  rw [guarded, h]
  rfl

theorem addU_eq (h : x.toNat + y.toNat < 2 ^ n) :
    ∃ r, addU x y = some r ∧ r.toNat = x.toNat + y.toNat := by
  have hnot : x.uaddOverflow y = false := decide_eq_false (Nat.not_le_of_lt h)
  exact ⟨_, guarded_of_eq_false hnot _,
    BitVec.toNat_add_of_not_uaddOverflow (Bool.eq_false_iff.1 hnot)⟩

theorem mulU_eq (h : x.toNat * y.toNat < 2 ^ n) :
    ∃ r, mulU x y = some r ∧ r.toNat = x.toNat * y.toNat := by
  have hnot : x.umulOverflow y = false := decide_eq_false (Nat.not_le_of_lt h)
  exact ⟨_, guarded_of_eq_false hnot _,
    BitVec.toNat_mul_of_not_umulOverflow (Bool.eq_false_iff.1 hnot)⟩

theorem addS_eq (h : FitsSigned n (x.toInt + y.toInt)) :
    ∃ r, addS x y = some r ∧ r.toInt = x.toInt + y.toInt := by
  have hnot := saddOverflow_eq_false_iff.2 h
  exact ⟨_, guarded_of_eq_false hnot _,
    BitVec.toInt_add_of_not_saddOverflow (Bool.eq_false_iff.1 hnot)⟩

theorem subS_eq (h : FitsSigned n (x.toInt - y.toInt)) :
    ∃ r, subS x y = some r ∧ r.toInt = x.toInt - y.toInt := by
  have hnot := ssubOverflow_eq_false_iff.2 h
  exact ⟨_, guarded_of_eq_false hnot _,
    BitVec.toInt_sub_of_not_ssubOverflow (Bool.eq_false_iff.1 hnot)⟩

theorem mulS_eq (h : FitsSigned n (x.toInt * y.toInt)) :
    ∃ r, mulS x y = some r ∧ r.toInt = x.toInt * y.toInt := by
  have hnot := smulOverflow_eq_false_iff.2 h
  exact ⟨_, guarded_of_eq_false hnot _,
    BitVec.toInt_mul_of_not_smulOverflow (Bool.eq_false_iff.1 hnot)⟩

theorem shiftL_eq {amount : Nat} (h : amount < n) : shiftL x amount = some (x <<< amount) :=
  guarded_of_eq_false (decide_eq_false (Nat.not_le_of_lt h)) _

theorem shiftR_eq {amount : Nat} (h : amount < n) : shiftR x amount = some (x >>> amount) :=
  guarded_of_eq_false (decide_eq_false (Nat.not_le_of_lt h)) _

theorem shiftRS_eq {amount : Nat} (h : amount < n) :
    shiftRS x amount = some (x.sshiftRight amount) :=
  guarded_of_eq_false (decide_eq_false (Nat.not_le_of_lt h)) _

theorem divU_eq (h : y ≠ 0) : divU x y = some (x / y) :=
  guarded_of_eq_false (beq_eq_false_iff_ne.2 h) _

theorem remU_eq (h : y ≠ 0) : remU x y = some (x % y) :=
  guarded_of_eq_false (beq_eq_false_iff_ne.2 h) _

theorem divTraps_eq_false (hzero : y ≠ 0) (hleast : x ≠ BitVec.intMin n) :
    divTraps x y = false := by
  rw [divTraps, beq_eq_false_iff_ne.2 hzero, beq_eq_false_iff_ne.2 hleast]
  rfl

theorem divS_eq (hzero : y ≠ 0) (hleast : x ≠ BitVec.intMin n) :
    ∃ q, divS x y = some q ∧ q.toInt = x.toInt.tdiv y.toInt :=
  ⟨_, guarded_of_eq_false (divTraps_eq_false hzero hleast) _,
    BitVec.toInt_sdiv_of_ne_or_ne x y (.inl hleast)⟩

theorem remS_eq (hzero : y ≠ 0) (hleast : x ≠ BitVec.intMin n) :
    ∃ r, remS x y = some r ∧ r.toInt = x.toInt.tmod y.toInt :=
  ⟨_, guarded_of_eq_false (divTraps_eq_false hzero hleast) _, BitVec.toInt_srem x y⟩

/-! ## Numbers of few bits -/

/-- The lowest `w` bits set. -/
def mask (w : Nat) : Option (BitVec 64) :=
  if 64 ≤ w then some (BitVec.allOnes 64)
  else do
    let power ← shiftL 1 w
    subU power 1

/-- The lowest `w` bits read in two's complement. -/
def extend (w : Nat) (bits : BitVec 64) : Option (BitVec 64) := do
  let amount ← countSub 64 w
  let top ← shiftL bits amount
  shiftRS top amount

/-- Two to the power of `w - 1`. -/
def halfPower (w : Nat) : Option (BitVec 128) := do
  let amount ← countSub w 1
  shiftL 1 amount

/-- The least two's complement number of `w` bits. -/
def least (w : Nat) : Option (BitVec 128) := do
  let power ← halfPower w
  negS power

/-- Whether a number is out of the range of two's complement numbers of `w` bits. -/
def outOfRange (w : Nat) (bits : BitVec 128) : Option Bool := do
  let low ← least w
  if bits.slt low then return true
  let power ← halfPower w
  let high ← subS power 1
  return high.slt bits

theorem mask_eq (hw : w ≤ 64) : mask w = some (BitVec.ofNat 64 (2 ^ w - 1)) := by
  rw [mask]
  split
  · rename_i h
    obtain rfl := Nat.le_antisymm hw h
    rfl
  · rename_i h
    have hlt : 2 ^ w < 2 ^ 64 := Nat.pow_lt_pow_right (by decide) (Nat.lt_of_not_le h)
    have hpos := Nat.two_pow_pos w
    have hpower : (1#64 <<< w).toNat = 2 ^ w := by
      rw [BitVec.toNat_shiftLeft, BitVec.toNat_ofNat, Nat.shiftLeft_eq, Nat.mod_eq_of_lt] <;>
        omega
    have hshift : shiftL 1#64 w = some (1#64 <<< w) :=
      guarded_of_eq_false (decide_eq_false h) _
    have hnot : (1#64 <<< w).usubOverflow 1#64 = false := by
      rw [BitVec.usubOverflow, hpower]
      exact decide_eq_false (Nat.not_lt_of_le hpos)
    have hsub : subU (1#64 <<< w) 1#64 = some (1#64 <<< w - 1#64) := guarded_of_eq_false hnot _
    have hbits : 1#64 <<< w - 1#64 = BitVec.ofNat 64 (2 ^ w - 1) := by
      apply BitVec.eq_of_toNat_eq
      have hle : 2 ^ w - 1 < 2 ^ 64 := by omega
      rw [BitVec.toNat_sub_of_not_usubOverflow (by rw [hnot]; decide), hpower,
        BitVec.toNat_ofNat (2 ^ w - 1), Nat.mod_eq_of_lt hle]
      rfl
    exact (congrArg (· >>= fun power => subU power 1) hshift).trans (hbits ▸ hsub)

/-- A mask keeps the low bits, with zeros above them. -/
theorem and_mask (hw : w ≤ 64) (bits : BitVec 64) :
    bits &&& BitVec.ofNat 64 (2 ^ w - 1) = (bits.setWidth w).setWidth 64 := by
  have hlt : 2 ^ w - 1 < 2 ^ 64 := Nat.lt_of_lt_of_le
    (Nat.sub_one_lt (Nat.two_pow_pos w).ne') (Nat.pow_le_pow_right (by decide) hw)
  apply BitVec.eq_of_toNat_eq
  rw [BitVec.toNat_and, BitVec.toNat_ofNat, Nat.mod_eq_of_lt hlt, Nat.and_two_pow_sub_one_eq_mod,
    BitVec.toNat_setWidth_of_le hw, BitVec.toNat_setWidth]

/-- Shifting up and down again copies the sign of the low bits. Neither shift is too wide, as there
is at least one bit. -/
theorem extend_eq (hpos : 0 < w) (hw : w ≤ 64) (bits : BitVec 64) :
    extend w bits = some ((bits.setWidth w).signExtend 64) := by
  have hcount : countSub 64 w = some (64 - w) := if_neg (Nat.not_lt_of_le hw)
  have hamount : decide (64 ≤ 64 - w) = false := decide_eq_false (by omega)
  have hbits : (bits <<< (64 - w)).sshiftRight (64 - w) = (bits.setWidth w).signExtend 64 := by
    apply BitVec.eq_of_getLsbD_eq
    intro i hi
    rw [BitVec.getLsbD_sshiftRight, BitVec.getLsbD_signExtend]
    by_cases hlow : i < w
    · have hsum : 64 - w + i < 64 := by omega
      simp [hlow, hi, hsum]
    · -- above the number there are copies of its highest bit
      have hsum : ¬ 64 - w + i < 64 := by omega
      have hlast : 63 - (64 - w) = w - 1 := by omega
      have hshift : ¬ 63 < 64 - w := by omega
      have hin : ¬ 64 ≤ i := by omega
      simp [hlow, hi, hsum, hlast, hshift, hin, BitVec.msb_eq_getLsbD_last,
        BitVec.getLsbD_eq_getElem, show w - 1 < 64 by omega, hpos]
  rw [extend, hcount, Option.bind_eq_bind, Option.bind_some, shiftL, guarded_of_eq_false hamount,
    Option.bind_eq_bind, Option.bind_some, shiftRS, guarded_of_eq_false hamount, hbits]

theorem halfPower_eq (hpos : 0 < w) (hw : w ≤ 64) :
    halfPower w = some (BitVec.ofInt 128 (2 ^ (w - 1))) := by
  have hcount : countSub w 1 = some (w - 1) := if_neg (by omega)
  have hbits : (1 : BitVec 128) <<< (w - 1) = BitVec.ofInt 128 (2 ^ (w - 1)) := by
    rw [shiftLeft_eq_ofInt]
    exact congrArg _ (Int.one_mul _)
  rw [halfPower, hcount, Option.bind_eq_bind, Option.bind_some, shiftL,
    guarded_of_eq_false (decide_eq_false (by omega)), hbits]

theorem fitsSigned_halfPower (hw : w ≤ 64) : FitsSigned 128 (2 ^ (w - 1)) := by
  have hpos : (0 : Int) < 2 ^ (w - 1) := Int.pow_pos (by decide)
  have hle : (2 : Int) ^ (w - 1) ≤ 2 ^ 64 := pow_le_pow_right₀ (by decide) (by omega)
  constructor <;> omega

theorem toInt_halfPower (hw : w ≤ 64) :
    (BitVec.ofInt 128 (2 ^ (w - 1))).toInt = 2 ^ (w - 1) :=
  toInt_ofInt_of_fits (by decide) (fitsSigned_halfPower hw)

theorem least_eq (hpos : 0 < w) (hw : w ≤ 64) :
    least w = some (BitVec.ofInt 128 (-2 ^ (w - 1))) := by
  have hnot : (BitVec.ofInt 128 (2 ^ (w - 1))).negOverflow = false := by
    have h : (0 : Int) < 2 ^ (w - 1) := Int.pow_pos (by decide)
    rw [BitVec.negOverflow, toInt_halfPower hw, beq_eq_false_iff_ne]
    omega
  rw [least, halfPower_eq hpos hw, Option.bind_eq_bind, Option.bind_some, negS,
    guarded_of_eq_false hnot, BitVec.ofInt_neg]

theorem toInt_least (hw : w ≤ 64) :
    (BitVec.ofInt 128 (-2 ^ (w - 1))).toInt = -2 ^ (w - 1) := by
  have h := (fitsSigned_halfPower hw).2
  have hpos : (0 : Int) < 2 ^ (w - 1) := Int.pow_pos (by decide)
  exact toInt_ofInt_of_fits (by decide) ⟨by omega, by omega⟩

theorem eq_least_iff (hw : w ≤ 64) (bits : BitVec 128) :
    bits = BitVec.ofInt 128 (-2 ^ (w - 1)) ↔ bits.toInt = -2 ^ (w - 1) := by
  rw [← BitVec.toInt_inj, toInt_least hw]

theorem eq_neg_one_iff (bits : BitVec 128) : bits = -1 ↔ bits.toInt = -1 := by
  rw [← BitVec.toInt_inj]
  rfl

/-- Comparing with the bounds of the two's complement range, which a wide register holds, tells
whether a number fits. -/
theorem outOfRange_eq (hpos : 0 < w) (hw : w ≤ 64) (bits : BitVec 128) :
    outOfRange w bits = some (!decide (FitsSigned w bits.toInt)) := by
  have hone : (1 : BitVec 128).toInt = 1 := by decide
  have hnot : (BitVec.ofInt 128 (2 ^ (w - 1))).ssubOverflow 1 = false := by
    have h := (fitsSigned_halfPower hw).2
    have hp : (0 : Int) < 2 ^ (w - 1) := Int.pow_pos (by decide)
    rw [ssubOverflow_eq_false_iff, toInt_halfPower hw, hone]
    constructor <;> omega
  have hhigh : (BitVec.ofInt 128 (2 ^ (w - 1)) - 1).toInt = 2 ^ (w - 1) - 1 := by
    rw [BitVec.toInt_sub_of_not_ssubOverflow (by rw [hnot]; decide), toInt_halfPower hw, hone]
  simp only [outOfRange, least_eq hpos hw, halfPower_eq hpos hw, subS, guarded_of_eq_false hnot,
    Option.bind_eq_bind, Option.bind_some, BitVec.slt_iff_toInt_lt, toInt_least hw]
  split
  · rename_i hlow
    have hnot : ¬ FitsSigned w bits.toInt := fun h => absurd h.1 (by omega)
    rw [decide_eq_false hnot]
    rfl
  · rename_i hlow
    refine congrArg some ?_
    rw [Bool.eq_iff_iff, BitVec.slt_iff_toInt_lt, hhigh, Bool.not_eq_true', decide_eq_false_iff_not,
      FitsSigned]
    omega

/-- Whether an unsigned number is beyond those of `w` bits. -/
theorem ult_mask (hw : w ≤ 64) (bits : BitVec 128) :
    ((BitVec.ofNat 64 (2 ^ w - 1)).setWidth 128).ult bits =
      !decide (FitsUnsigned w bits.toNat) := by
  have hpos := Nat.two_pow_pos w
  have hlt : 2 ^ w - 1 < 2 ^ 64 := Nat.lt_of_lt_of_le
    (Nat.sub_one_lt hpos.ne') (Nat.pow_le_pow_right (by decide) hw)
  rw [BitVec.ult, BitVec.toNat_setWidth_of_le (by decide), BitVec.toNat_ofNat,
    Nat.mod_eq_of_lt hlt, Bool.eq_iff_iff, decide_eq_true_iff, Bool.not_eq_true',
    decide_eq_false_iff_not, fitsUnsigned_natCast_iff]
  omega

/-- Whether bits below a position are set. -/
theorem and_mask_ne_zero {amount : Nat} (h : amount ≤ 64) (bits : BitVec 64) :
    (bits &&& BitVec.ofNat 64 (2 ^ amount - 1) != 0) =
      !decide ((bits.toNat : Int) % 2 ^ amount = 0) := by
  rw [and_mask h, ne_zero_eq_toNat, BitVec.toNat_setWidth_of_le h, BitVec.toNat_setWidth]
  push_cast
  rfl

/-! ## Numbers in wider registers -/

section Wide

variable {x y : BitVec w} {sx sy : BitVec 128}

theorem toInt_signExtend_signExtend (hw : w ≤ 64) (x : BitVec w) :
    ((x.signExtend 64).signExtend 128).toInt = x.toInt := by
  rw [BitVec.toInt_signExtend_of_le (by decide), BitVec.toInt_signExtend_of_le hw]

theorem setWidth_setWidth_self (hw : w ≤ 64) (x : BitVec w) : (x.setWidth 64).setWidth w = x := by
  rw [BitVec.setWidth_setWidth_of_le x hw, BitVec.setWidth_eq]

theorem toNat_setWidth_setWidth (hw : w ≤ 64) (x : BitVec w) :
    ((x.setWidth 64).setWidth 128).toNat = x.toNat := by
  rw [BitVec.toNat_setWidth_of_le (by decide), BitVec.toNat_setWidth_of_le hw]

theorem toNat_lt_two_pow (hw : w ≤ 64) (x : BitVec w) : x.toNat < 2 ^ 64 :=
  Nat.lt_of_lt_of_le x.isLt (Nat.pow_le_pow_right (by decide) hw)

/-- Registers of 128 bits are wide enough for unsigned sums of 64 bits. -/
theorem addU_wide (hw : w ≤ 64) (x y : BitVec w) :
    ∃ r, addU ((x.setWidth 64).setWidth 128) ((y.setWidth 64).setWidth 128) = some r ∧
      r.toNat = x.toNat + y.toNat := by
  have hx := toNat_lt_two_pow hw x
  have hy := toNat_lt_two_pow hw y
  rw [← toNat_setWidth_setWidth hw] at hx hy ⊢
  rw [← toNat_setWidth_setWidth hw y]
  exact addU_eq (by omega)

/-- Registers of 128 bits are wide enough for unsigned products of 64 bits. -/
theorem mulU_wide (hw : w ≤ 64) (x y : BitVec w) :
    ∃ r, mulU ((x.setWidth 64).setWidth 128) ((y.setWidth 64).setWidth 128) = some r ∧
      r.toNat = x.toNat * y.toNat := by
  rw [← toNat_setWidth_setWidth hw x, ← toNat_setWidth_setWidth hw y]
  apply mulU_eq
  rw [toNat_setWidth_setWidth hw, toNat_setWidth_setWidth hw]
  calc x.toNat * y.toNat < 2 ^ 64 * 2 ^ 64 :=
        Nat.mul_lt_mul'' (toNat_lt_two_pow hw x) (toNat_lt_two_pow hw y)
    _ = 2 ^ 128 := by decide

/-- Registers of 128 bits are wide enough for the sums, differences and products of 64 bits. -/
theorem fitsSigned_combine {a b : Int} (ha : FitsSigned 64 a) (hb : FitsSigned 64 b) :
    FitsSigned 128 (a + b) ∧ FitsSigned 128 (a - b) ∧ FitsSigned 128 (a * b) := by
  obtain ⟨ha, ha'⟩ := ha
  obtain ⟨hb, hb'⟩ := hb
  norm_num at ha ha' hb hb'
  have hmul : |a * b| ≤ 2 ^ 63 * 2 ^ 63 := by
    rw [abs_mul]
    exact mul_le_mul (abs_le.2 ⟨by omega, by omega⟩) (abs_le.2 ⟨by omega, by omega⟩)
      (abs_nonneg b) (by decide)
  obtain ⟨hlow, hhigh⟩ := abs_le.1 hmul
  norm_num at hlow hhigh
  refine ⟨⟨?_, ?_⟩, ⟨?_, ?_⟩, ⟨?_, ?_⟩⟩ <;> norm_num <;> omega

theorem addS_wide (hw : w ≤ 64) (hsx : sx.toInt = x.toInt) (hsy : sy.toInt = y.toInt) :
    ∃ r, addS sx sy = some r ∧ r.toInt = x.toInt + y.toInt := by
  rw [← hsx, ← hsy]
  exact addS_eq (hsx ▸ hsy ▸ (fitsSigned_combine (fitsSigned_mono hw (fitsSigned_toInt x))
    (fitsSigned_mono hw (fitsSigned_toInt y))).1)

theorem subS_wide (hw : w ≤ 64) (hsx : sx.toInt = x.toInt) (hsy : sy.toInt = y.toInt) :
    ∃ r, subS sx sy = some r ∧ r.toInt = x.toInt - y.toInt := by
  rw [← hsx, ← hsy]
  exact subS_eq (hsx ▸ hsy ▸ (fitsSigned_combine (fitsSigned_mono hw (fitsSigned_toInt x))
    (fitsSigned_mono hw (fitsSigned_toInt y))).2.1)

theorem mulS_wide (hw : w ≤ 64) (hsx : sx.toInt = x.toInt) (hsy : sy.toInt = y.toInt) :
    ∃ r, mulS sx sy = some r ∧ r.toInt = x.toInt * y.toInt := by
  rw [← hsx, ← hsy]
  exact mulS_eq (hsx ▸ hsy ▸ (fitsSigned_combine (fitsSigned_mono hw (fitsSigned_toInt x))
    (fitsSigned_mono hw (fitsSigned_toInt y))).2.2)

/-- The least number of 128 bits is below all numbers of 64 bits, so the one division that has no
result is never met in wide registers. -/
theorem ne_intMin (hw : w ≤ 64) (hsx : sx.toInt = x.toInt) : sx ≠ BitVec.intMin 128 := by
  have hfits := fitsSigned_mono hw (fitsSigned_toInt x)
  rw [← hsx] at hfits
  rintro rfl
  revert hfits
  decide

theorem divS_wide (hw : w ≤ 64) (hsx : sx.toInt = x.toInt) (hsy : sy.toInt = y.toInt)
    (hzero : y.toInt ≠ 0) : ∃ q, divS sx sy = some q ∧ q.toInt = x.toInt.tdiv y.toInt := by
  rw [← hsx, ← hsy]
  exact divS_eq (by rwa [Ne, eq_zero_iff_toInt, hsy]) (ne_intMin hw hsx)

theorem remS_wide (hw : w ≤ 64) (hsx : sx.toInt = x.toInt) (hsy : sy.toInt = y.toInt)
    (hzero : y.toInt ≠ 0) : ∃ r, remS sx sy = some r ∧ r.toInt = x.toInt.tmod y.toInt := by
  rw [← hsx, ← hsy]
  exact remS_eq (by rwa [Ne, eq_zero_iff_toInt, hsy]) (ne_intMin hw hsx)

theorem divU_wide (hw : w ≤ 64) (x : BitVec w) (hzero : y.toNat ≠ 0) :
    ∃ q, divU (x.setWidth 64) (y.setWidth 64) = some q ∧ q.toNat = x.toNat / y.toNat := by
  refine ⟨_, divU_eq ?_, ?_⟩
  · rwa [Ne, eq_zero_iff_toNat, BitVec.toNat_setWidth_of_le hw]
  · rw [BitVec.toNat_udiv, BitVec.toNat_setWidth_of_le hw, BitVec.toNat_setWidth_of_le hw]

theorem remU_wide (hw : w ≤ 64) (x : BitVec w) (hzero : y.toNat ≠ 0) :
    ∃ r, remU (x.setWidth 64) (y.setWidth 64) = some r ∧ r.toNat = x.toNat % y.toNat := by
  refine ⟨_, remU_eq ?_, ?_⟩
  · rwa [Ne, eq_zero_iff_toNat, BitVec.toNat_setWidth_of_le hw]
  · rw [BitVec.toNat_umod, BitVec.toNat_setWidth_of_le hw, BitVec.toNat_setWidth_of_le hw]

end Wide

end SymbolicBytes.Register
