import SymbolicBytes.Proofs.PointerSizedArithmetic
/-!
# Comparisons and subtraction

Integer comparisons against the numbers they compare. `IntPred.Holds` is the comparison of two
numbers that are read without a sign and with one. On words of any width the comparisons are that
(`IntPred.onWords_eq`), and they are what a subtraction tells: without signs one word is below
another if their difference wraps (`ult_eq_usubOverflow`), and with signs if the sign bit of their
difference is not whether the difference overflows (`slt_eq_msb_sub`).

`comparesExactly` says so of the instructions, on integers of a fixed width and on pointer-sized
integers of any size and sign.
-/

namespace SymbolicBytes

/-! ## The reference -/

/-- Whether a comparison holds between two numbers, from their unsigned readings `ux` and `uy` and
their two's complement readings `sx` and `sy`. -/
def IntPred.Holds (pred : IntPred) (ux uy : Nat) (sx sy : Int) : Prop :=
  match pred with
  | .eq => ux = uy
  | .ne => ux ≠ uy
  | .ugt => ux > uy
  | .uge => ux ≥ uy
  | .ult => ux < uy
  | .ule => ux ≤ uy
  | .sgt => sx > sy
  | .sge => sx ≥ sy
  | .slt => sx < sy
  | .sle => sx ≤ sy

instance (pred : IntPred) (ux uy : Nat) (sx sy : Int) : Decidable (pred.Holds ux uy sx sy) :=
  match pred with
  | .eq => inferInstanceAs (Decidable (_ = _))
  | .ne => inferInstanceAs (Decidable (_ ≠ _))
  | .ugt | .ult => inferInstanceAs (Decidable ((_ : Nat) < _))
  | .uge | .ule => inferInstanceAs (Decidable ((_ : Nat) ≤ _))
  | .sgt | .slt => inferInstanceAs (Decidable ((_ : Int) < _))
  | .sge | .sle => inferInstanceAs (Decidable ((_ : Int) ≤ _))

/-! ## Words -/

section Words

variable {n : Nat}

/-- Words compare as their readings do. -/
theorem IntPred.onWords_eq (pred : IntPred) (x y : BitVec n) :
    pred.onWords x y = decide (pred.Holds x.toNat y.toNat x.toInt y.toInt) := by
  rw [Bool.eq_iff_iff, decide_eq_true_iff]
  cases pred with
  | eq => exact beq_iff_eq.trans BitVec.toNat_inj.symm
  | ne => exact bne_iff_ne.trans (not_congr BitVec.toNat_inj.symm)
  | ugt | ult => exact BitVec.ult_iff_toNat_lt
  | uge | ule => exact BitVec.ule_iff_toNat_le
  | sgt | slt => exact BitVec.slt_iff_toInt_lt
  | sge | sle => exact BitVec.sle_iff_toInt_le

/-- Without signs, one word is below another exactly if their difference wraps. -/
theorem ult_eq_usubOverflow (x y : BitVec n) : x.ult y = x.usubOverflow y :=
  BitVec.ult_eq_decide

/-- A difference that overflows has the wrong sign, since it is off by the number of all words and
its exact value by less than half as much. -/
theorem toInt_sub_neg_iff_of_overflow (hn : 0 < n) {x y : BitVec n}
    (h : ¬ FitsSigned n (x.toInt - y.toInt)) : (x - y).toInt < 0 ↔ ¬ x.toInt - y.toInt < 0 := by
  have hpow := mul_pow_sub_one hn.ne' (2 : Int)
  have hcast : ((2 ^ n : Nat) : Int) = 2 ^ n := Int.natCast_pow 2 n
  obtain ⟨hxlow, hxhigh⟩ := fitsSigned_toInt x
  obtain ⟨hylow, hyhigh⟩ := fitsSigned_toInt y
  rw [FitsSigned, not_and_or, Int.not_le, Int.not_le] at h
  rw [BitVec.toInt_sub]
  rcases h with hlow | hhigh
  · have hwrap : (x.toInt - y.toInt).bmod (2 ^ n) = x.toInt - y.toInt + 2 ^ n := by
      rw [← Int.add_bmod_right, hcast]
      exact Int.bmod_eq_of_le (by omega) (by omega)
    omega
  · have hwrap : (x.toInt - y.toInt).bmod (2 ^ n) = x.toInt - y.toInt - 2 ^ n := by
      rw [← Int.sub_bmod_right, hcast]
      exact Int.bmod_eq_of_le (by omega) (by omega)
    omega

/-- With signs, one word is below another if the sign of their difference says so, or, where the
difference overflows, says the contrary. -/
theorem slt_eq_msb_sub (hn : 0 < n) (x y : BitVec n) :
    x.slt y = ((x - y).msb != x.ssubOverflow y) := by
  rw [Bool.eq_iff_iff, BitVec.slt_iff_toInt_lt, bne_iff_ne, BitVec.msb_eq_toInt]
  cases hoverflow : x.ssubOverflow y with
  | false =>
    rw [BitVec.toInt_sub_of_not_ssubOverflow (by simp [hoverflow]), Ne, decide_eq_false_iff_not,
      not_not]
    omega
  | true =>
    have hfits : ¬ FitsSigned n (x.toInt - y.toInt) := by
      rw [← ssubOverflow_eq_false_iff, hoverflow]
      decide
    rw [Ne, decide_eq_true_iff, toInt_sub_neg_iff_of_overflow hn hfits]
    omega

end Words

/-! ## Instructions -/

/-- The sign bit of an integer, which for a pointer-sized one is that of its low bits. -/
def Value.signBit (iptrBits : Nat) : Value → Bool
  | .int i => i.bits.msb
  | .iptr x => (BitVec.ofInt iptrBits x).msb
  | _ => false

/-- What is to be shown of comparing two integers of a type: that they compare as numbers which
read as `ux` and `uy` without a sign and as `sx` and `sy` with one, and as subtracting tells. -/
structure InstructionSet.OrdersAs (iptrBits : Nat) (ty : Ty) (v w : Value) (ux uy : Nat)
    (sx sy : Int) : Prop where
  /-- every comparison is that of the readings -/
  compares : ∀ pred : IntPred, (standard iptrBits).binary (.intCmp pred) v w =
    .ok (.bit (pred.Holds ux uy sx sy))
  /-- without signs the first is below if a difference promised not to wrap is poison -/
  below : (standard iptrBits).binary (.intCmp .ult) v w = .ok (.bit true) ↔
    (standard iptrBits).binary (.int (.sub true false)) v w = .ok (.poison ty)
  /-- with signs the first is below if the exact difference is negative -/
  negative : (standard iptrBits).binary (.intCmp .slt) v w = .ok (.bit true) ↔ sx - sy < 0
  /-- and if the sign bit of the plain difference is not whether a difference promised not to
  overflow is poison -/
  sign : ∃ d, (standard iptrBits).binary (.int (.sub false false)) v w = .ok d ∧
    ((standard iptrBits).binary (.intCmp .slt) v w = .ok (.bit true) ↔
      ¬ (d.signBit iptrBits = true ↔
        (standard iptrBits).binary (.int (.sub false true)) v w = .ok (.poison ty)))

/-- What is to be shown of the comparisons of integers when pointers have `n` bits. -/
structure InstructionSet.ComparesExactly (n : Nat) : Prop where
  /-- integers of a fixed width are ordered as their bits read -/
  fixedWidth : ∀ (iptrBits : Nat) (w : IntWidth) (x y : BitVec w.bits),
    OrdersAs iptrBits (.int w.bits) (.int ⟨w, x⟩) (.int ⟨w, y⟩) x.toNat y.toNat x.toInt y.toInt
  /-- pointer-sized integers are ordered as their low bits read -/
  pointerSized : ∀ x y : Int, OrdersAs n .iptr (.iptr x) (.iptr y) (x % 2 ^ n).toNat
    (y % 2 ^ n).toNat (x.bmod (2 ^ n)) (y.bmod (2 ^ n))
  /-- operands with the same low bits compare alike -/
  lowBits : ∀ (pred : IntPred) (x y x' y' : Int), x' % 2 ^ n = x % 2 ^ n → y' % 2 ^ n = y % 2 ^ n →
    (standard n).binary (.intCmp pred) (.iptr x') (.iptr y') =
      (standard n).binary (.intCmp pred) (.iptr x) (.iptr y)
  /-- integers of a fixed width of `n` bits with these low bits compare alike -/
  sameWidth : ∀ w : IntWidth, w.bits = n → ∀ (pred : IntPred) (x y : Int),
    (standard n).binary (.intCmp pred) (.int ⟨w, BitVec.ofInt w.bits x⟩)
        (.int ⟨w, BitVec.ofInt w.bits y⟩) =
      (standard n).binary (.intCmp pred) (.iptr x) (.iptr y)

open InstructionSet (OrdersAs ComparesExactly standard)

@[simp] theorem Value.bit_inj {b c : Bool} : Value.bit b = .bit c ↔ b = c := by
  cases b <;> cases c <;> decide

/-- Values that compare and subtract as words do are ordered as the words read. This is all that
fixed and pointer-sized integers have to be looked at for. -/
theorem InstructionSet.ordersAs_of_words {iptrBits n : Nat} (hn : 0 < n) {ty : Ty} {v w : Value}
    {x y : BitVec n} (ofWord : BitVec n → Value) (hpoison : ∀ bits, ofWord bits ≠ .poison ty)
    (hsign : ∀ bits, (ofWord bits).signBit iptrBits = bits.msb)
    (hcompare : ∀ pred : IntPred,
      (standard iptrBits).binary (.intCmp pred) v w = .ok (.bit (pred.onWords x y)))
    (hsub : ∀ nuw nsw, (standard iptrBits).binary (.int (.sub nuw nsw)) v w =
      .ok (if nuw && x.usubOverflow y || nsw && x.ssubOverflow y then .poison ty
        else ofWord (x - y))) :
    OrdersAs iptrBits ty v w x.toNat y.toNat x.toInt y.toInt := by
  have hbelow : (standard iptrBits).binary (.intCmp .slt) v w = .ok (.bit true) ↔
      x.slt y = true := by
    rw [hcompare, Except.ok.injEq, Value.bit_inj]
    rfl
  constructor
  case compares =>
    intro pred
    rw [hcompare, pred.onWords_eq]
  case below =>
    rw [hcompare, hsub, Except.ok.injEq, Except.ok.injEq, Value.bit_inj, IntPred.onWords,
      ult_eq_usubOverflow]
    cases x.usubOverflow y <;> simp [hpoison]
  case negative =>
    rw [hbelow, BitVec.slt_iff_toInt_lt]
    omega
  case sign =>
    -- without promises there is no poison, so the plain difference has a sign bit to look at
    refine ⟨ofWord (x - y), by simp [hsub], ?_⟩
    rw [hbelow, slt_eq_msb_sub hn, hsign, hsub, Except.ok.injEq]
    cases x.ssubOverflow y <;> cases (x - y).msb <;> simp [hpoison]

theorem IntPred.binary_int (iptrBits : Nat) (pred : IntPred) {w : IntWidth} (x y : BitVec w.bits) :
    (standard iptrBits).binary (.intCmp pred) (.int ⟨w, x⟩) (.int ⟨w, y⟩) =
      .ok (.bit (pred.onWords x y)) := by
  change pred.onScalars iptrBits (.int ⟨w, x⟩) (.int ⟨w, y⟩) = _
  rw [IntPred.onScalars, dif_pos rfl, BitVec.cast_eq]

namespace InstructionSet

theorem ordersAs_int (iptrBits : Nat) (w : IntWidth) (x y : BitVec w.bits) :
    OrdersAs iptrBits (.int w.bits) (.int ⟨w, x⟩) (.int ⟨w, y⟩) x.toNat y.toNat x.toInt
      y.toInt := by
  apply ordersAs_of_words w.bits_pos fun bits => .int ⟨w, bits⟩
  case hpoison => simp
  case hsign => exact fun _ => rfl
  case hcompare => exact fun pred => pred.binary_int iptrBits x y
  case hsub =>
    intro nuw nsw
    change (IntOp.sub nuw nsw).onScalars iptrBits (.int ⟨w, x⟩) (.int ⟨w, y⟩) = _
    rw [IntOp.onScalars, dif_pos rfl, BitVec.cast_eq, IntOp.onWords]
    cases nuw && x.usubOverflow y || nsw && x.ssubOverflow y <;> rfl

/-- Pointer-sized integers are ordered as their low bits read, whatever was written. -/
theorem ordersAs_iptr {n : Nat} (hn : 0 < n) (x y : Int) :
    OrdersAs n .iptr (.iptr x) (.iptr y) (x % 2 ^ n).toNat (y % 2 ^ n).toNat (x.bmod (2 ^ n))
      (y.bmod (2 ^ n)) := by
  rw [← toNat_ofInt_eq, ← toNat_ofInt_eq, ← BitVec.toInt_ofInt, ← BitVec.toInt_ofInt]
  apply ordersAs_of_words hn fun bits => .iptr bits.toNat
  case hpoison => simp
  case hsign =>
    intro bits
    rw [Value.signBit, ofInt_toNat]
  case hcompare => exact fun _ => rfl
  case hsub =>
    intro nuw nsw
    change (IntOp.sub nuw nsw).onScalars n (.iptr x) (.iptr y) = _
    rw [IntOp.onScalars, IntOp.onWords]
    cases nuw && (BitVec.ofInt n x).usubOverflow (BitVec.ofInt n y) ||
      nsw && (BitVec.ofInt n x).ssubOverflow (BitVec.ofInt n y) <;> rfl

/-- Integer comparisons are exact at every width, and agree with subtraction: a comparison without
signs with the promise not to wrap, and one with signs with the promise not to overflow. -/
theorem comparesExactly {n : Nat} (hn : 1 ≤ n) : ComparesExactly n := by
  constructor
  case fixedWidth => exact ordersAs_int
  case pointerSized => exact ordersAs_iptr hn
  case lowBits =>
    intro pred x y x' y' hx hy
    change pred.onScalars n (.iptr x') (.iptr y') = pred.onScalars n (.iptr x) (.iptr y)
    rw [IntPred.onScalars, IntPred.onScalars, ofInt_eq_of_emod_eq hx, ofInt_eq_of_emod_eq hy]
  case sameWidth =>
    rintro w rfl pred x y
    rw [pred.binary_int]
    rfl

/-- In eight bits, a negative number that reads as 24 and one too large that reads as 255 or -1. -/
theorem comparesExactly_oversized :
    1 ≤ 8 ∧ ComparesExactly 8 ∧
      (standard 8).binary (.intCmp .ult) (.iptr (-1000)) (.iptr 511) = .ok (.bit true) ∧
      (standard 8).binary (.intCmp .slt) (.iptr (-1000)) (.iptr 511) = .ok (.bit false) :=
  ⟨by decide, comparesExactly (by decide), by decide, by decide⟩

end InstructionSet

end SymbolicBytes
