import SymbolicBytes.Proofs.Outcomes
import SymbolicBytes.Proofs.Registers
/-!
# Conversions between integers

Extending, with zeros or with copies of the sign, and truncating, between integers of the fixed
widths and pointer-sized ones of any number of bits. All three are functions on words
(`castFrom_zext`, `castFrom_sext`, `castFrom_trunc`), whatever the two kinds are, and what there is
to know of them and of one after another follows from the functions on words (`castsIntegers`).

In machine registers, the extension with copies of the sign shifts its operand up and down again,
and every result is masked. That is the same.
-/

namespace SymbolicBytes

/-! ## Kinds of integers -/

/-- What is converted between: integers of a fixed width and pointer-sized ones. -/
inductive IntKind where
  /-- integers of a fixed width -/
  | fixed (w : IntWidth)
  /-- pointer-sized integers -/
  | pointerSized
  deriving DecidableEq

namespace IntKind

variable {n : Nat}

/-- The type of integers of the kind. -/
def ty : IntKind → Ty
  | fixed w => .int w.bits
  | pointerSized => .iptr

/-- The number of bits, of which pointer-sized integers have `n`. -/
def bits (n : Nat) : IntKind → Nat
  | fixed w => w.bits
  | pointerSized => n

/-- The integer of the kind that a word stands for. Pointer-sized integers are unsigned. -/
def scalar : (kind : IntKind) → BitVec (kind.bits n) → Scalar
  | fixed w, word => .int ⟨w, word⟩
  | pointerSized, word => .iptr word.toNat

/-- That integer as a value. -/
def value (kind : IntKind) (word : BitVec (kind.bits n)) : Value := .scalar (kind.scalar word)

/-- Whether there is a conversion from the one kind to the other: from pointer-sized integers there
is truncation only, and to them there are extensions only. -/
def Admits : Cast → IntKind → IntKind → Prop
  | .trunc, _, fixed _ => True
  | .zext, fixed _, _ | .sext, fixed _, _ => True
  | _, _, _ => False

end IntKind

/-- A conversion of a value from the one kind of integers to the other. -/
def castFrom (n : Nat) (op : Cast) (source target : IntKind) (v : Value) : Outcome Value :=
  (InstructionSet.standard n).convert op source.ty v target.ty

/-! ## Conversions as functions on words -/

section Words

variable {n : Nat}

/-- A word of another width with the same unsigned reading, as far as it fits. -/
theorem ofInt_toNat_eq_setWidth {v : Nat} (word : BitVec v) (w : Nat) :
    BitVec.ofInt w word.toNat = word.setWidth w := by
  rw [BitVec.ofInt_natCast, BitVec.ofNat_toNat]

theorem fixedWidth_bits (w : IntWidth) (int : Int) :
    fixedWidth w.bits int = .ok (.int ⟨w, BitVec.ofInt w.bits int⟩) := by
  simp [fixedWidth, FixedInt.ofInt?]

/-- Extending with zeros takes the unsigned reading over, or what fits of it: a pointer-sized
integer may be the shorter one. -/
theorem castFrom_zext {w : IntWidth} (target : IntKind) (word : BitVec w.bits) :
    castFrom n .zext (.fixed w) target (.int ⟨w, word⟩) =
      .ok (target.value (word.setWidth (target.bits n))) := by
  cases target with
  | fixed w' =>
    refine (fixedWidth_bits w' word.toNat).trans ?_
    rw [ofInt_toNat_eq_setWidth]
    rfl
  | pointerSized =>
    change Except.ok (Value.iptr (wrapUnsigned n word.toNat)) = _
    rw [wrapUnsigned, ofInt_toNat_eq_setWidth]
    rfl

/-- Extending with copies of the sign takes the two's complement reading over, as far as it fits. -/
theorem castFrom_sext {w : IntWidth} (target : IntKind) (word : BitVec w.bits) :
    castFrom n .sext (.fixed w) target (.int ⟨w, word⟩) =
      .ok (target.value (word.signExtend (target.bits n))) := by
  cases target with
  | fixed w' => exact fixedWidth_bits w' word.toInt
  | pointerSized => rfl

/-- Truncating keeps the low bits. From a shorter integer it adds zeros, which is not refused. -/
theorem castFrom_trunc {source : IntKind} (w : IntWidth) (word : BitVec (source.bits n)) :
    castFrom n .trunc source (.fixed w) (source.value word) =
      .ok (.int ⟨w, word.setWidth w.bits⟩) := by
  rw [← ofInt_toNat_eq_setWidth]
  cases source with
  | fixed w' => exact fixedWidth_bits w word.toNat
  | pointerSized => exact fixedWidth_bits w word.toNat

theorem castFrom_zext_fixed {w : IntWidth} (w' : IntWidth) (word : BitVec w.bits) :
    castFrom n .zext (.fixed w) (.fixed w') (.int ⟨w, word⟩) =
      .ok (.int ⟨w', word.setWidth w'.bits⟩) := castFrom_zext (.fixed w') word

theorem castFrom_sext_fixed {w : IntWidth} (w' : IntWidth) (word : BitVec w.bits) :
    castFrom n .sext (.fixed w) (.fixed w') (.int ⟨w, word⟩) =
      .ok (.int ⟨w', word.signExtend w'.bits⟩) := castFrom_sext (.fixed w') word

theorem castFrom_trunc_fixed {w : IntWidth} (w' : IntWidth) (word : BitVec w.bits) :
    castFrom n .trunc (.fixed w) (.fixed w') (.int ⟨w, word⟩) =
      .ok (.int ⟨w', word.setWidth w'.bits⟩) := @castFrom_trunc n (.fixed w) w' word

/-- There is a result exactly if the conversion between the two kinds is admitted. It depends on the
kinds alone, never on the number. -/
theorem exists_castFrom_iff {op : Cast} {source target : IntKind} (word : BitVec (source.bits n)) :
    (∃ d, castFrom n op source target (source.value word) = .ok d) ↔ source.Admits op target := by
  by_cases h : source.Admits op target
  · refine iff_of_true ?_ h
    cases op with
    | trunc =>
      cases target with
      | fixed w => exact ⟨_, castFrom_trunc w word⟩
      | pointerSized => cases h
    | zext =>
      cases source with
      | fixed w => exact ⟨_, castFrom_zext target word⟩
      | pointerSized => cases h
    | sext =>
      cases source with
      | fixed w => exact ⟨_, castFrom_sext target word⟩
      | pointerSized => cases h
    | _ => cases h
  · refine iff_of_false ?_ h
    rintro ⟨d, hd⟩
    cases op <;> cases source <;> cases target <;> first | exact h trivial | cases hd

end Words

/-! ## Conversions in registers -/

/-- The lowest `w` bits, kept by a mask. -/
def Register.masked (w : Nat) (bits : BitVec 64) : Option (BitVec 64) := do
  return bits &&& (← mask w)

/-- A conversion between fixed widths of a number that is held in a register of 64 bits; nothing if
a step of the computation traps, or if the conversion is not one between integers. -/
def Cast.onRegister (op : Cast) (source target : Nat) (bits : BitVec 64) : Option (BitVec 64) :=
  match op with
  | .trunc | .zext => Register.masked target bits
  | .sext => do Register.masked target (← Register.extend source bits)
  | _ => none

theorem setWidth_signExtend {v w m : Nat} (hm : w ≤ m) (word : BitVec v) :
    (word.signExtend m).setWidth w = word.signExtend w := setWidth_ofInt hm word.toInt

theorem IntWidth.bits_le (w : IntWidth) : w.bits ≤ 64 := by cases w <;> decide

/-- A mask cuts what is held in a register to a width, and none of its shifts is too wide. -/
theorem Register.masked_eq (w : IntWidth) (bits : BitVec 64) :
    masked w.bits bits = some ((bits.setWidth w.bits).setWidth 64) := by
  rw [masked, mask_eq w.bits_le, ← and_mask w.bits_le]
  rfl

/-- Shifting a number up and down again copies its sign. Both shifts are by less than the register
has, as no width is zero. -/
theorem Register.extend_word (w : IntWidth) (word : BitVec w.bits) :
    extend w.bits (word.setWidth 64) = some (word.signExtend 64) := by
  rw [extend_eq w.bits_pos w.bits_le, setWidth_setWidth_self w.bits_le]

/-- Shifting and masking in a register is what the conversions between fixed widths do, and it does
not trap. -/
theorem Cast.onRegister_eq {n : Nat} {op : Cast} {source target : IntWidth}
    {word : BitVec source.bits} {result : BitVec target.bits}
    (h : castFrom n op (.fixed source) (.fixed target) (.int ⟨source, word⟩) =
      .ok (.int ⟨target, result⟩)) :
    op.onRegister source.bits target.bits (word.setWidth 64) = some (result.setWidth 64) := by
  cases op with
  | trunc =>
    have hresult : result = word.setWidth target.bits := by
      simpa using h.symm.trans (castFrom_trunc_fixed target word)
    rw [onRegister, Register.masked_eq, BitVec.setWidth_setWidth_of_le _ target.bits_le, hresult]
  | zext =>
    have hresult : result = word.setWidth target.bits := by
      simpa using h.symm.trans (castFrom_zext_fixed target word)
    rw [onRegister, Register.masked_eq, BitVec.setWidth_setWidth_of_le _ target.bits_le, hresult]
  | sext =>
    have hresult : result = word.signExtend target.bits := by
      simpa using h.symm.trans (castFrom_sext_fixed target word)
    rw [onRegister, Register.extend_word, Option.bind_eq_bind, Option.bind_some,
      Register.masked_eq, setWidth_signExtend target.bits_le, hresult]
  | _ => cases h

/-! ## What there is to know -/

/-- What is to be shown of conversions between integers, with pointer-sized ones of `n` bits. -/
structure CastsIntegers (n : Nat) : Prop where
  /-- exactly the truncations to a fixed width and the extensions of one have results -/
  ok_iff : ∀ (op : Cast) (source target : IntKind) (word : BitVec (source.bits n)),
    (∃ d, castFrom n op source target (source.value word) = .ok d) ↔ source.Admits op target
  /-- extending with zeros keeps the unsigned reading -/
  zext : ∀ (w : IntWidth) (target : IntKind) (word : BitVec w.bits), w.bits ≤ target.bits n →
    ∃ result : BitVec (target.bits n),
      castFrom n .zext (.fixed w) target (.int ⟨w, word⟩) = .ok (target.value result) ∧
      result.toNat = word.toNat
  /-- extending with copies of the sign keeps the two's complement reading -/
  sext : ∀ (w : IntWidth) (target : IntKind) (word : BitVec w.bits), w.bits ≤ target.bits n →
    ∃ result : BitVec (target.bits n),
      castFrom n .sext (.fixed w) target (.int ⟨w, word⟩) = .ok (target.value result) ∧
      result.toInt = word.toInt
  /-- truncating reduces modulo a power of two -/
  trunc : ∀ (source : IntKind) (w : IntWidth) (word : BitVec (source.bits n)),
    ∃ result : BitVec w.bits,
      castFrom n .trunc source (.fixed w) (source.value word) = .ok (.int ⟨w, result⟩) ∧
      result.toNat = word.toNat % 2 ^ w.bits
  /-- what was extended in either way is truncated to what it was -/
  trunc_extended : ∀ (op : Cast), op = .zext ∨ op = .sext → ∀ (w : IntWidth) (middle : IntKind)
    (word : BitVec w.bits), w.bits ≤ middle.bits n →
    castFrom n op (.fixed w) middle (.int ⟨w, word⟩) >>= castFrom n .trunc middle (.fixed w) =
      .ok (.int ⟨w, word⟩)
  /-- extending twice in the same way is extending once -/
  extended_extended : ∀ (op : Cast), op = .zext ∨ op = .sext → ∀ (w middle : IntWidth)
    (target : IntKind) (word : BitVec w.bits), w.bits ≤ middle.bits →
    castFrom n op (.fixed w) (.fixed middle) (.int ⟨w, word⟩) >>=
        castFrom n op (.fixed middle) target =
      castFrom n op (.fixed w) target (.int ⟨w, word⟩)
  /-- in a register, shifting up and down again gives the two's complement reading -/
  shifted : ∀ (w : IntWidth) (word : BitVec w.bits),
    ∃ result, Register.extend w.bits (word.setWidth 64) = some result ∧
      result.toInt = word.toInt
  /-- between fixed widths, shifting and masking in registers of 64 bits gives the same -/
  registers : ∀ (op : Cast) (source target : IntWidth) (word : BitVec source.bits)
    (result : BitVec target.bits),
    castFrom n op (.fixed source) (.fixed target) (.int ⟨source, word⟩) =
      .ok (.int ⟨target, result⟩) →
    op.onRegister source.bits target.bits (word.setWidth 64) = some (result.setWidth 64)

/-- Extending keeps the reading that it extends, truncating reduces modulo a power of two, and
truncating undoes extending. This is so for all kinds of integers, of whatever width pointers are,
and the registers give the same. -/
theorem castsIntegers (n : Nat) : CastsIntegers n where
  ok_iff _ _ _ := exists_castFrom_iff
  zext w target word hle :=
    ⟨_, castFrom_zext target word, BitVec.toNat_setWidth_of_le hle⟩
  sext w target word hle :=
    ⟨_, castFrom_sext target word, BitVec.toInt_signExtend_of_le hle⟩
  trunc source w word := ⟨_, castFrom_trunc w word, BitVec.toNat_setWidth ..⟩
  trunc_extended := by
    rintro op (rfl | rfl) w middle word hle
    · rw [castFrom_zext, Outcome.ok_bind, castFrom_trunc, BitVec.setWidth_setWidth_of_le _ hle,
        BitVec.setWidth_eq]
    · rw [castFrom_sext, Outcome.ok_bind, castFrom_trunc, setWidth_signExtend hle,
        BitVec.signExtend_eq]
  extended_extended := by
    rintro op (rfl | rfl) w middle target word hle
    · rw [castFrom_zext_fixed, Outcome.ok_bind, castFrom_zext, castFrom_zext,
        BitVec.setWidth_setWidth (fun h => Nat.not_lt_of_le hle h.1)]
    · rw [castFrom_sext_fixed, Outcome.ok_bind, castFrom_sext, castFrom_sext, BitVec.signExtend,
        BitVec.toInt_signExtend_of_le hle]
      rfl
  shifted w word :=
    ⟨_, Register.extend_word w word, BitVec.toInt_signExtend_of_le w.bits_le⟩
  registers _ _ _ _ _ := Cast.onRegister_eq

example : castFrom 64 .sext (.fixed .i1) .pointerSized (.bit true) = .ok (.iptr (2 ^ 64 - 1)) := by
  decide

end SymbolicBytes
