import SymbolicBytes.Proofs.Registers
/-!
# Integer instructions in machine registers

Integers of at most 64 bits, computed on in registers of 64 and of 128 bits: the operands are held
with zeros above them, signs are extended by shifting, sums and products are checked in the wider
registers, and the low bits of the result are kept. `IntOp.onRegisters` does so step by step, with
the checks in the order in which they are made. It never traps, and what it gives is the exact
result modulo a power of two (`IntOp.onRegisters_eq`).

The instructions on integers of the four widths that have values give the same result
(`IntOp.binary_eq_exact`).
-/

namespace SymbolicBytes

namespace Register

/-! ## Promises -/

/-- Whether a promise is broken. What was not promised is not computed. -/
def broken (promised : Bool) (check : Option Bool) : Option Bool :=
  if promised then check else some false

/-- Whether one of two promises is broken. The second is computed only if the first is not. -/
def eitherBroken (first second : Option Bool) : Option Bool := do
  if ← first then return true
  second

/-- Poison if a promise is broken, and the lowest bits of the result otherwise. -/
def keep (mask : BitVec 64) (broken : Option Bool) (bits : Option (BitVec 64)) :
    Option (WordResult 64) := do
  if ← broken then return .poison
  let bits ← bits
  return .value (bits &&& mask)

/-- Whether a bit is set below the position `y`, which would be lost by a shift to the right. -/
def losesBits (x y : BitVec 64) : Option Bool := do
  let low ← mask (y.setWidth 32).toNat
  return x &&& low != 0

end Register

open Register in
/-- The result of an integer operation on two numbers of `w` bits, which are held in registers of 64
bits and computed on in registers of 64 and of 128; nothing if a step of the computation traps. -/
def IntOp.onRegisters (w : Nat) (op : IntOp) (x y : BitVec 64) : Option (WordResult 64) := do
  let sx := (← extend w x).signExtend 128
  let sy := (← extend w y).signExtend 128
  let m ← mask w
  let amount := y.toNat
  match op with
  | .add nuw nsw =>
    let unsigned := do return (m.setWidth 128).ult (← addU (x.setWidth 128) (y.setWidth 128))
    let signed := do outOfRange w (← addS sx sy)
    keep m (eitherBroken (broken nuw unsigned) (broken nsw signed)) (some (x + y))
  | .sub nuw nsw =>
    let signed := do outOfRange w (← subS sx sy)
    keep m (eitherBroken (broken nuw (some (x.ult y))) (broken nsw signed)) (some (x - y))
  | .mul nuw nsw =>
    let unsigned := do return (m.setWidth 128).ult (← mulU (x.setWidth 128) (y.setWidth 128))
    let signed := do outOfRange w (← mulS sx sy)
    keep m (eitherBroken (broken nuw unsigned) (broken nsw signed)) (some (x * y))
  | .shl nuw nsw =>
    if w ≤ amount then return .poison
    let r := (← shiftL x amount) &&& m
    let unsigned := do return (← shiftR r amount) != x
    let signed := do return (← shiftRS (← extend w r) amount).signExtend 128 != sx
    keep m (eitherBroken (broken nuw unsigned) (broken nsw signed)) (some r)
  | .lshr exact =>
    if w ≤ amount then return .poison
    keep m (broken exact (losesBits x y)) (shiftR x amount)
  | .ashr exact =>
    if w ≤ amount then return .poison
    keep m (broken exact (losesBits x y)) (do shiftRS (← extend w x) amount)
  | .udiv exact =>
    if y = 0 then return .divisionByZero
    let remains := do return (← remU x y) != 0
    keep m (broken exact remains) (divU x y)
  | .urem =>
    if y = 0 then return .divisionByZero
    keep m (some false) (remU x y)
  | .sdiv exact =>
    if sy = 0 then return .divisionByZero
    if sx = (← least w) ∧ sy = -1 then return .overflow
    let remains := do return (← remS sx sy) != 0
    keep m (broken exact remains) (do return (← divS sx sy).setWidth 64)
  | .srem =>
    if sy = 0 then return .divisionByZero
    if sx = (← least w) ∧ sy = -1 then return .overflow
    keep m (some false) (do return (← remS sx sy).setWidth 64)
  | .and => keep m (some false) (some (x &&& y))
  | .or => keep m (some false) (some (x ||| y))
  | .xor => keep m (some false) (some (x ^^^ y))

/-- The result in a register. -/
def WordResult.inRegister {w : Nat} : WordResult w → WordResult 64
  | .value bits => .value (bits.setWidth 64)
  | .poison => .poison
  | .divisionByZero => .divisionByZero
  | .overflow => .overflow

namespace Register

variable {w : Nat}

/-! ## Checks -/

/-- The low bits and the two range checks, made on a sum or a product in wide registers, are the
exact result in its ranges. -/
theorem keep_eq_inRange {nuw nsw : Bool} {unsigned signed : Option Bool} {u s : Int}
    {bits : BitVec 64} (hw : w ≤ 64) (hunsigned : unsigned = some (!decide (FitsUnsigned w u)))
    (hsigned : signed = some (!decide (FitsSigned w s)))
    (hbits : bits.setWidth w = BitVec.ofInt w u) :
    keep (BitVec.ofNat 64 (2 ^ w - 1)) (eitherBroken (broken nuw unsigned) (broken nsw signed))
        (some bits) =
      some ((ExactResult.inRange w nuw nsw u s).toWord w).inRegister := by
  subst hunsigned hsigned
  by_cases hu : FitsUnsigned w u <;> by_cases hs : FitsSigned w s <;> cases nuw <;> cases nsw <;>
    simp [keep, eitherBroken, broken, ExactResult.inRange, ExactResult.toWord,
      WordResult.inRegister, and_mask hw, hbits, hu, hs]

/-- The low bits of a quotient and the check for a remainder are the exact quotient. -/
theorem keep_eq_quotient {exact : Bool} {lost : Option Bool} {q r : Int} {bits : BitVec 64}
    (hw : w ≤ 64) (hlost : lost = some (!decide (r = 0)))
    (hbits : bits.setWidth w = BitVec.ofInt w q) :
    keep (BitVec.ofNat 64 (2 ^ w - 1)) (broken exact lost) (some bits) =
      some ((ExactResult.quotient exact q r).toWord w).inRegister := by
  subst hlost
  by_cases hr : r = 0 <;> cases exact <;>
    simp [keep, broken, ExactResult.quotient, ExactResult.toWord, WordResult.inRegister,
      and_mask hw, hbits, hr]

theorem keep_eq_value {int : Int} {bits : BitVec 64} (hw : w ≤ 64)
    (hbits : bits.setWidth w = BitVec.ofInt w int) :
    keep (BitVec.ofNat 64 (2 ^ w - 1)) (some false) (some bits) =
      some ((ExactResult.value int).toWord w).inRegister := by
  simp [keep, ExactResult.toWord, WordResult.inRegister, and_mask hw, hbits]

/-- Shifting left and back in a register shows if the shifted number does not fit without a sign. -/
theorem shiftedOut_unsigned {s : Nat} (hw : w ≤ 64) (hs : s < w) (x : BitVec w) :
    ((x <<< s).setWidth 64 >>> s != x.setWidth 64) =
      !decide (FitsUnsigned w (x.toNat * 2 ^ s)) := by
  have hback : (x <<< s).setWidth 64 >>> s = x.setWidth 64 ↔ x <<< s >>> s = x := by
    rw [← BitVec.toNat_inj, ← BitVec.toNat_inj, BitVec.toNat_ushiftRight, BitVec.toNat_ushiftRight,
      BitVec.toNat_setWidth_of_le hw, BitVec.toNat_setWidth_of_le hw]
  rw [Bool.eq_iff_iff, bne_iff_ne, Ne, hback, shiftLeft_ushiftRight_eq_iff hs, Bool.not_eq_true',
    decide_eq_false_iff_not]

/-- Shifting left and back shows if the shifted number does not fit with a sign, provided that the
sign is extended in between. -/
theorem shiftedOut_signed {s : Nat} (hw : w ≤ 64) (hs : s < w) (x : BitVec w) {sx : BitVec 128}
    (hsx : sx.toInt = x.toInt) :
    ((((x <<< s).signExtend 64).sshiftRight s).signExtend 128 != sx) =
      !decide (FitsSigned w (x.toInt * 2 ^ s)) := by
  have hback : (((x <<< s).signExtend 64).sshiftRight s).signExtend 128 = sx ↔
      (x <<< s).sshiftRight s = x := by
    rw [← BitVec.toInt_inj, ← BitVec.toInt_inj, hsx, BitVec.toInt_signExtend_of_le (by decide),
      BitVec.toInt_sshiftRight, BitVec.toInt_sshiftRight, BitVec.toInt_signExtend_of_le hw]
  rw [Bool.eq_iff_iff, bne_iff_ne, Ne, hback, shiftLeft_sshiftRight_eq_iff hs, Bool.not_eq_true',
    decide_eq_false_iff_not]

/-- The bits below the position of a shift to the right are the remainder. -/
theorem losesBits_eq (hw : w ≤ 64) (x : BitVec w) {y : BitVec w} (hs : y.toNat < w) :
    losesBits (x.setWidth 64) (y.setWidth 64) =
      some (!decide ((x.toNat : Int) % 2 ^ y.toNat = 0)) := by
  have hlt : y.toNat < 64 := Nat.lt_of_lt_of_le hs hw
  have hcount : ((y.setWidth 64).setWidth 32).toNat = y.toNat := by
    rw [BitVec.toNat_setWidth, BitVec.toNat_setWidth_of_le hw, Nat.mod_eq_of_lt (by omega)]
  rw [losesBits, hcount, mask_eq hlt.le, Option.bind_eq_bind, Option.bind_some, Option.pure_def,
    and_mask_ne_zero hlt.le, BitVec.toNat_setWidth_of_le hw]

end Register

/-! ## Operations -/

open Register in
/-- In registers no step traps, and the result is the exact one modulo a power of two. For no
operands of the width does a sum or product leave the wide registers, and each shift and division is
made only after the check that it can be. -/
theorem IntOp.onRegisters_eq {w : Nat} (hpos : 0 < w) (hw : w ≤ 64) (op : IntOp) (x y : BitVec w) :
    op.onRegisters w (x.setWidth 64) (y.setWidth 64) =
      some ((op.onIntegers w x.toNat y.toNat x.toInt y.toInt).toWord w).inRegister := by
  have hX := setWidth_setWidth_self hw x
  have hY := setWidth_setWidth_self hw y
  have hXnat : (x.setWidth 64).toNat = x.toNat := BitVec.toNat_setWidth_of_le hw
  have hYnat : (y.setWidth 64).toNat = y.toNat := BitVec.toNat_setWidth_of_le hw
  simp only [onRegisters, extend_eq hpos hw, mask_eq hw, Option.bind_eq_bind, Option.bind_some,
    Option.pure_def, hX, hY, hYnat]
  -- of the extended operands, only what they read as is used
  have hsx := toInt_signExtend_signExtend hw x
  have hsy := toInt_signExtend_signExtend hw y
  generalize (x.signExtend 64).signExtend 128 = sx at hsx
  generalize (y.signExtend 64).signExtend 128 = sy at hsy
  cases op with
  | add nuw nsw =>
    obtain ⟨u, hu, hunat⟩ := addU_wide hw x y
    obtain ⟨s, hs, hsint⟩ := addS_wide hw hsx hsy
    simp only [hu, hs, Option.bind_some, ult_mask hw, outOfRange_eq hpos hw]
    apply keep_eq_inRange hw
    · rw [hunat, Int.natCast_add]
    · rw [hsint]
    · rw [BitVec.setWidth_add _ _ hw, hX, hY, BitVec.ofInt_add, ofInt_toNat, ofInt_toNat]
  | sub nuw nsw =>
    obtain ⟨s, hs, hsint⟩ := subS_wide hw hsx hsy
    simp only [hs, Option.bind_some, outOfRange_eq hpos hw]
    apply keep_eq_inRange hw
    · have hfits := usubOverflow_eq_false_iff (x := x) (y := y)
      rw [BitVec.usubOverflow, decide_eq_false_iff_not] at hfits
      simp only [← hfits, BitVec.ult, hXnat, hYnat, decide_not, Bool.not_not]
    · rw [hsint]
    · rw [← setWidth_ofInt hw, ofInt_sub, ← hXnat, ← hYnat, ofInt_toNat, ofInt_toNat]
  | mul nuw nsw =>
    obtain ⟨u, hu, hunat⟩ := mulU_wide hw x y
    obtain ⟨s, hs, hsint⟩ := mulS_wide hw hsx hsy
    simp only [hu, hs, Option.bind_some, ult_mask hw, outOfRange_eq hpos hw]
    apply keep_eq_inRange hw
    · rw [hunat, Int.natCast_mul]
    · rw [hsint]
    · rw [BitVec.setWidth_mul _ _ hw, hX, hY, BitVec.ofInt_mul, ofInt_toNat, ofInt_toNat]
  | shl nuw nsw =>
    simp only [onIntegers]
    split
    · rfl
    · rename_i hs
      have hlt : y.toNat < 64 := by omega
      have hs := Nat.lt_of_not_le hs
      simp only [shiftL_eq hlt, shiftR_eq hlt, shiftRS_eq hlt, Option.bind_some, and_mask hw,
        setWidth_shiftLeft hw, setWidth_setWidth_self hw, shiftedOut_unsigned hw hs,
        shiftedOut_signed hw hs x hsx]
      apply keep_eq_inRange hw rfl rfl
      rw [setWidth_setWidth_self hw, shiftLeft_eq_ofInt]
  | lshr exact =>
    simp only [onIntegers]
    split
    · rfl
    · rename_i hs
      have hlt : y.toNat < 64 := by omega
      simp only [losesBits_eq hw x (Nat.lt_of_not_le hs), shiftR_eq hlt]
      apply keep_eq_quotient hw rfl
      rw [setWidth_eq_ofInt_toNat hw, BitVec.toNat_ushiftRight, hXnat, Nat.shiftRight_eq_div_pow]
      push_cast
      rfl
  | ashr exact =>
    simp only [onIntegers]
    split
    · rfl
    · rename_i hs
      have hlt : y.toNat < 64 := by omega
      simp only [losesBits_eq hw x (Nat.lt_of_not_le hs), shiftRS_eq hlt]
      apply keep_eq_quotient hw
      · rw [toInt_emod_two_pow (Nat.le_of_not_le hs)]
      · rw [setWidth_eq_ofInt hw, BitVec.toInt_sshiftRight, BitVec.toInt_signExtend_of_le hw,
          Int.shiftRight_eq_div_pow]
        push_cast
        rfl
  | udiv exact =>
    simp only [onIntegers, eq_zero_iff_toNat (y.setWidth 64), hYnat]
    split
    · rfl
    · rename_i hzero
      obtain ⟨r, hr, hrnat⟩ := remU_wide hw x hzero
      obtain ⟨q, hq, hqnat⟩ := divU_wide hw x hzero
      simp only [hr, hq, Option.bind_some]
      apply keep_eq_quotient hw
      · rw [ne_zero_eq_toNat, hrnat, Int.natCast_emod]
      · rw [setWidth_eq_ofInt_toNat hw, hqnat, Int.natCast_ediv]
  | urem =>
    simp only [onIntegers, eq_zero_iff_toNat (y.setWidth 64), hYnat]
    split
    · rfl
    · rename_i hzero
      obtain ⟨r, hr, hrnat⟩ := remU_wide hw x hzero
      simp only [hr]
      apply keep_eq_value hw
      rw [setWidth_eq_ofInt_toNat hw, hrnat, Int.natCast_emod]
  | sdiv exact =>
    simp only [onIntegers, least_eq hpos hw, Option.bind_some, eq_zero_iff_toInt sy,
      eq_least_iff hw sx, eq_neg_one_iff sy, hsx, hsy]
    split
    · rfl
    · rename_i hzero
      split
      · rfl
      · obtain ⟨r, hr, hrint⟩ := remS_wide hw hsx hsy hzero
        obtain ⟨q, hq, hqint⟩ := divS_wide hw hsx hsy hzero
        simp only [hr, hq, Option.bind_some]
        apply keep_eq_quotient hw
        · rw [ne_zero_eq_toInt, hrint]
        · rw [BitVec.setWidth_setWidth_of_le _ hw, setWidth_eq_ofInt (by omega), hqint]
  | srem =>
    simp only [onIntegers, least_eq hpos hw, Option.bind_some, eq_zero_iff_toInt sy,
      eq_least_iff hw sx, eq_neg_one_iff sy, hsx, hsy]
    split
    · rfl
    · rename_i hzero
      split
      · rfl
      · obtain ⟨r, hr, hrint⟩ := remS_wide hw hsx hsy hzero
        simp only [hr, Option.bind_some]
        apply keep_eq_value hw
        rw [BitVec.setWidth_setWidth_of_le _ hw, setWidth_eq_ofInt (by omega), hrint]
  | and =>
    apply keep_eq_value hw
    rw [BitVec.setWidth_and, hX, hY, ← ofInt_toNat (x &&& y), BitVec.toNat_and]
  | or =>
    apply keep_eq_value hw
    rw [BitVec.setWidth_or, hX, hY, ← ofInt_toNat (x ||| y), BitVec.toNat_or]
  | xor =>
    apply keep_eq_value hw
    rw [BitVec.setWidth_xor, hX, hY, ← ofInt_toNat (x ^^^ y), BitVec.toNat_xor]

/-- The outcome of an instruction that an exact result stands for. -/
def ExactResult.outcome (op : IntOp) {w : IntWidth} (x : BitVec w.bits) :
    ExactResult → Outcome Value
  | value int => .ok (.int ⟨w, BitVec.ofInt w.bits int⟩)
  | poison => .ok (.poison (.int w.bits))
  | divisionByZero => .error (.divisionByZero op.mnemonic)
  | overflow => .error (.divisionOverflow op.mnemonic (.int ⟨w, x⟩))

/-- An instruction that applies to its operands fails for their values and not as malformed. -/
theorem ExactResult.kind_of_outcome_eq_error {op : IntOp} {w : IntWidth} {x : BitVec w.bits}
    {r : ExactResult} {fault : Fault} (h : r.outcome op x = .error fault) :
    fault.kind = .evaluation := by
  cases r <;> cases h <;> rfl

/-- An instruction on integers of a fixed width gives the exact result on their readings, whatever
width the set gives to pointer-sized integers. -/
theorem IntOp.binary_int (iptrBits : Nat) (op : IntOp) {w : IntWidth} (x y : BitVec w.bits) :
    (InstructionSet.standard iptrBits).binary (.int op) (.int ⟨w, x⟩) (.int ⟨w, y⟩) =
      (op.onIntegers w.bits x.toNat y.toNat x.toInt y.toInt).outcome op x := by
  change op.onScalars iptrBits (.int ⟨w, x⟩) (.int ⟨w, y⟩) = _
  rw [IntOp.onScalars, dif_pos rfl, BitVec.cast_eq, op.onWords_eq_toWord w.bits_pos]
  cases op.onIntegers w.bits x.toNat y.toNat x.toInt y.toInt <;> rfl

/-- An integer instruction on two integers of one width gives the exact result modulo a power of
two, or poison for a broken promise or a shift that is too wide, or an evaluation fault for a
division without result. In registers of 64 and 128 bits it is computed without a step that
overflows, shifts by the width or more, or divides by zero. -/
theorem IntOp.binary_eq_exact (iptrBits : Nat) (op : IntOp) {w : IntWidth} (x y : BitVec w.bits) :
    let r := op.onIntegers w.bits x.toNat y.toNat x.toInt y.toInt
    (InstructionSet.standard iptrBits).binary (.int op) (.int ⟨w, x⟩) (.int ⟨w, y⟩) =
        r.outcome op x ∧
      (∀ fault, r.outcome op x = .error fault → fault.kind = .evaluation) ∧
      op.onRegisters w.bits (x.setWidth 64) (y.setWidth 64) =
        some (r.toWord w.bits).inRegister := by
  have hw : w.bits ≤ 64 := by cases w <;> decide
  exact ⟨op.binary_int iptrBits x y, fun _ => ExactResult.kind_of_outcome_eq_error,
    op.onRegisters_eq w.bits_pos hw x y⟩

end SymbolicBytes
