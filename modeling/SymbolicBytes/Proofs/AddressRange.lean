import SymbolicBytes.Proofs.ConcreteValues
import SymbolicBytes.Proofs.Loading
import SymbolicBytes.Proofs.Reloading
/-!
# Addresses in the range of pointers

A flat address has 64 bits, however small pointers are. Deciding a value of which all addresses are
in the range of pointers makes addresses in this range, with one exception: an integer of a fixed
width that is converted to a pointer is taken as it is (`address_in_range_or_cast`). Zero values,
addresses that are built from bytes and pointer-sized integers all are in range already
(`keepsScalars_inRange`).

An address in the range can be stored: loaded as a whole it is the same address, and its bytes spell
the same place (`readsBack_of_lt`). One beyond the range is stored as well, but its bytes spell
another place (`address_beyond_range`).
-/

namespace SymbolicBytes

/-- Whether a scalar is in the range of pointers, if it is a pointer-sized integer, and in that
range or one of some other numbers, if it is an address. -/
def Target.InRangeOr (target : Target) (other : Nat → Prop) : Scalar → Prop
  | .address a => a.bits.toNat < 2 ^ target.pointerBits ∨ other a.bits.toNat
  | s => target.Canonical s

namespace Target

variable {target : Target} {other : Nat → Prop}

theorem inRangeOr_of_fits {s : Scalar} (h : target.Fits s) : target.InRangeOr other s := by
  cases s with
  | address a => exact .inl h
  | _ => exact canonical_of_fits h

/-- The range says nothing of scalars but of the pointer-sized ones, so what holds of
`Target.Allows` applies. -/
theorem allows_inRangeOr : target.Allows (target.InRangeOr other) := by
  intro s hs haddress
  cases s with
  | address a => exact absurd rfl (haddress a)
  | _ => exact hs

end Target

/-- No integer of a fixed width is wider than a flat address. -/
theorem FixedInt.toNat_lt (i : FixedInt) : i.toNat < 2 ^ 64 := by
  refine Nat.lt_of_lt_of_le i.bits.isLt (Nat.pow_le_pow_right (by decide) ?_)
  cases i.width <;> decide

/-- Whether a number is an integer of a fixed width that a conversion to pointers inside the value
is applied to, once its operand is decided. -/
def SymValue.CastsToPointer (machine : Machine) (v : SymValue) (n : Nat) : Prop :=
  ∃ source value target e i, .cast .inttoptr source value target ∈ v.parts ∧
    machine.concretize value = .ok e ∧ .int i ∈ e.parts ∧ i.toNat = n

namespace Machine

variable {target : Target} {other : Nat → Prop}

/-! ## What makes addresses -/

/-- A conversion makes an address of its integer, which it does not cut, or passes one on. This is
the one step that can leave the range. -/
theorem inRangeOr_castPointer {cast : Cast} {v d : Value} {ty : Ty}
    (hv : v.ScalarsIn (target.InRangeOr other))
    (hcast : v.ScalarsIn fun s => cast = .inttoptr → ∀ i, s = .int i → other i.toNat)
    (h : (standard target).castPointer cast v ty = .ok d) :
    d.ScalarsIn (target.InRangeOr other) := by
  rcases castPointer_inv h with
    ⟨a, -, -, rfl⟩ | ⟨_, _, i, -, -, -, rfl⟩ | ⟨int, provenance, a, -, hint, ha, rfl⟩
  · exact Value.scalarsIn_scalar.2 (Target.canonical_iptr_toNat _)
  · exact Value.scalarsIn_scalar.2 trivial
  · refine Value.scalarsIn_scalar.2 ?_
    cases ha
    rcases hint with ⟨i, rfl, rfl, rfl⟩ | rfl | ⟨b, rfl, rfl⟩
    · -- an integer with a fixed width
      refine .inr ?_
      rw [BitVec.ofInt_natCast, BitVec.toNat_ofNat, Nat.mod_eq_of_lt i.toNat_lt]
      exact Value.scalarsIn_scalar.1 hcast rfl i rfl
    · -- a pointer-sized integer, which is in range
      have hrange : target.InRangeOr other (.iptr int) := Value.scalarsIn_scalar.1 hv
      obtain ⟨n, rfl⟩ := Int.eq_ofNat_of_zero_le hrange.1
      refine .inl (Nat.lt_of_le_of_lt ?_ (by exact_mod_cast hrange.2))
      rw [BitVec.ofInt_natCast, BitVec.toNat_ofNat]
      exact Nat.mod_le ..
    · -- an address, which reads as its bits
      have hsame : BitVec.ofInt 64 (AddressSpace.flat.toInt b) = b.bits := by
        simp only [AddressSpace.flat, BitVec.ofInt_natCast, BitVec.ofNat_toNat, BitVec.setWidth_eq]
      have hrange : target.InRangeOr other (.address b) := Value.scalarsIn_scalar.1 hv
      simpa only [Target.InRangeOr, standard, hsame] using hrange

/-- The standard instructions keep addresses in the range of pointers or among some other numbers,
if integers that are converted to pointers are among those. What these are is left open, to be
filled in from the value that is decided. -/
theorem keepsScalars_inRange (hp : target.pointerSize ≤ 8) (other : Nat → Prop) :
    (standard target).KeepsScalars (target.InRangeOr other)
      fun cast s => cast = .inttoptr → ∀ i, s = .int i → other i.toNat where
  zero s hs := by
    cases s with
    | address a =>
      cases hs
      exact .inl (Nat.two_pow_pos _)
    | iptr int => exact (keepsScalars_canonical target (by omega)).zero _ hs
    | _ => trivial
  ofBytes s bytes hs :=
    Target.inRangeOr_of_fits (Value.scalarsIn_scalar.1 (fits_ofBytes rfl hp hs))
  binary _ _ h := Target.allows_inRangeOr.onLanes h
  convert hv _ h := Target.allows_inRangeOr.castLanes hv h
  castPointer hv hcast h := inRangeOr_castPointer hv hcast h

/-! ## Storing addresses -/

/-- Whether an address can be stored, is loaded as a whole as the same address, and byte by byte, at
the depth at which a load decides its bytes, as the same place. -/
def ReadsBack (machine : Machine) (a : Address) : Prop :=
  ∀ ids : StoreIds, ids.next < StoreIds.last → ∃ bytes ids',
    machine.encode (.scalar (.address a)) .pointer ids = (.ok bytes, ids') ∧
      bytes.length = machine.target.pointerSize ∧
      machine.decode bytes .pointer = .ok (.scalar (.address a)) ∧
      machine.valueOfBytes (machine.target.arrange bytes) .pointer 1 =
        .ok (.address ⟨a.bits, .wildcard⟩)

/-- An address in the range of pointers stands for itself. -/
theorem standsFor_address (hp : 1 ≤ target.pointerSize) (hp8 : target.pointerSize ≤ 8) {a : Address}
    (ha : a.bits.toNat < 2 ^ target.pointerBits) :
    (standard target).StandsFor (.scalar (.address a)) .pointer (.address a) where
  plain _ _ := nofun
  whole := rfl
  inside := rfl
  hasTy := .scalar (.address a)
  poisonFree := Value.poisonFree_scalar _
  addresses := Value.scalarsIn_scalar.2 fun b hb => by cases hb; exact ha
  size := by
    have hpow : 256 ^ target.pointerSize = 2 ^ target.pointerBits :=
      Target.pow_pointerSize (by omega)
    exact hpow ▸ Nat.le_of_lt (Nat.lt_pow_self (by decide))

/-- An address in the range of pointers is read back: whole it is the same, and byte by byte it is
the same place without what it points into. -/
theorem readsBack_of_lt (hp : 1 ≤ target.pointerSize) (hp8 : target.pointerSize ≤ 8) {a : Address}
    (ha : a.bits.toNat < 2 ^ target.pointerBits) : (standard target).ReadsBack a := by
  intro ids hids
  have hstands := standsFor_address hp hp8 ha
  have hsize : 0 < target.byteSize .pointer := hp
  obtain ⟨bytes, ids', hbytes⟩ := exists_encode_toSym (standard target) hstands.hasTy
    (Scalar.supported_ty (.address a)) (Nat.zero_le _) hids
  refine ⟨bytes, ids', hbytes, length_encode hbytes,
    decode_encode_of_plain hsize hstands.plain hbytes, ?_⟩
  rw [(encode_eq_ok_of_plain hstands.plain hbytes).1, Target.arrange_arrange]
  -- the bytes are those of one store, and carry the bytes of the address
  have hcarries := (backed_run hstands (.stored ids.next) ids.next).imp fun _ _ => Backed.carries
  have halike : (standard target).DecidedAlike (SymByte.run (.scalar (.address a))
      (.stored ids.next) .pointer ids.next (target.byteSize .pointer)) := by
    apply DecidedAlike.of_owned
    intro b hb c hc _
    obtain ⟨_, -, rfl⟩ := List.mem_map.1 hb
    obtain ⟨_, -, rfl⟩ := List.mem_map.1 hc
    rfl
  obtain ⟨d, hd, hbuilt⟩ := exists_valueOfBytesBy hcarries halike
    (Scalar.supported_ty (.address a))
    (by rw [SymByte.length_run, Target.byteSize]; exact Nat.lt_of_le_of_lt hp8 (by decide))
    (SymByte.length_run ..)
  have hsame : (standard target).ofBytes .pointer
      ((standard target).storedBytes (.address a) .pointer) = .ok (.address ⟨a.bits, .wildcard⟩) :=
    storedBytes_scalar (.address a) ▸ @ofBytes_scalar (standard target) rfl hp8 (.address a) ha
  rw [Except.ok.inj (hsame.symm.trans hbuilt)]
  exact hd

/-! ## Addresses of decided values -/

/-- Of a value whose addresses are in the range of pointers, every scalar that is decided is in the
range, or an address of a number that is converted to a pointer in the value. -/
theorem inRangeOr_concretize (hp : target.pointerSize ≤ 8) {v : SymValue}
    (hv : ∀ a, .scalar (.address a) ∈ v.parts → a.bits.toNat < 2 ^ target.pointerBits) {d : Value}
    (hd : (standard target).concretize v = .ok d) :
    d.ScalarsIn (target.InRangeOr (v.CastsToPointer (standard target))) := by
  refine scalarsIn_concretizeWithin (keepsScalars_inRange hp _) (Nat.le_refl _) ?_ hd
  intro w hw
  cases w with
  | scalar s =>
    cases s with
    | address a => exact .inl (hv a hw)
    | iptr int => exact Target.canonical_iptr_toNat _
    | _ => trivial
  | cast op source value result =>
    rintro e he s hs rfl i rfl
    exact ⟨source, value, result, e, i, hw, he, hs, rfl⟩
  | _ => trivial

/-- Of a value whose addresses are in the range of pointers, every address that is decided is in the
range and read back, or an integer beyond the range that is converted to a pointer in the value. So
whoever converts no such integers need not care how small pointers are. -/
theorem address_in_range_or_cast (target : Target) (hp : 1 ≤ target.pointerSize)
    (hp8 : target.pointerSize ≤ 8) {v : SymValue}
    (hv : ∀ a, .scalar (.address a) ∈ v.parts → a.bits.toNat < 2 ^ target.pointerBits) {d : Value}
    (hd : (standard target).concretize v = .ok d) :
    ∀ a, .address a ∈ d.parts →
      (a.bits.toNat < 2 ^ target.pointerBits ∧ (standard target).ReadsBack a) ∨
        (2 ^ target.pointerBits ≤ a.bits.toNat ∧
          v.CastsToPointer (standard target) a.bits.toNat) := by
  intro a ha
  rcases Nat.lt_or_ge a.bits.toNat (2 ^ target.pointerBits) with hlt | hge
  · exact .inl ⟨hlt, readsBack_of_lt hp hp8 hlt⟩
  · refine .inr ⟨hge, ?_⟩
    exact (inRangeOr_concretize hp8 hv hd _ ha).resolve_left (Nat.not_lt_of_le hge)

/-- The first number beyond pointers of two bytes, converted to a pointer. -/
def wideCast : SymValue := .cast .inttoptr (.int 32) (.scalar (.int ⟨.i32, 0x10000⟩)) .pointer

/-- An address that is written out, one of a pointer-sized integer, and one beyond the range. -/
def threeAddresses : SymValue :=
  .aggregate (.record .struct)
    [.scalar (.address ⟨4096, .allocation 3⟩),
      .cast .inttoptr .iptr (.scalar (.iptr (-1))) .pointer, wideCast]

/-- Of three addresses in one record, the last is beyond the range, and it is a conversion. -/
theorem address_in_range_or_cast_threeAddresses :
    (∀ a, .scalar (.address a) ∈ threeAddresses.parts →
        a.bits.toNat < 2 ^ shortPointers.pointerBits) ∧
      ∃ d, (standard shortPointers).concretize threeAddresses = .ok d ∧
        ∀ a, .address a ∈ d.parts →
          (a.bits.toNat < 2 ^ shortPointers.pointerBits ∧ (standard shortPointers).ReadsBack a) ∨
            (2 ^ shortPointers.pointerBits ≤ a.bits.toNat ∧
              threeAddresses.CastsToPointer (standard shortPointers) a.bits.toNat) := by
  have hwritten : ∀ a, .scalar (.address a) ∈ threeAddresses.parts →
      a.bits.toNat < 2 ^ shortPointers.pointerBits := by
    intro a ha
    obtain rfl : a = ⟨4096, .allocation 3⟩ := by
      simpa [threeAddresses, wideCast, SymValue.parts, SymValue.partsAll] using ha
    decide
  have hd : (standard shortPointers).concretize threeAddresses =
      .ok (.aggregate (.record .struct) [.address ⟨4096, .allocation 3⟩,
        .address ⟨0xffff, .wildcard⟩, .address ⟨0x10000, .wildcard⟩]) := rfl
  exact ⟨hwritten, _, hd,
    address_in_range_or_cast shortPointers (by decide) (by decide) hwritten hd⟩

/-- A value without addresses may be decided as an address beyond the range. It is loaded as a whole
as it was stored, but its bytes spell the null address. -/
theorem address_beyond_range :
    (∀ a, .scalar (.address a) ∉ wideCast.parts) ∧
      ∃ a bytes ids, (standard shortPointers).concretize wideCast = .ok (.address a) ∧
        ¬ a.bits.toNat < 2 ^ shortPointers.pointerBits ∧
        (standard shortPointers).encode (.scalar (.address a)) .pointer .all = (.ok bytes, ids) ∧
        (standard shortPointers).decode bytes .pointer = .ok (.scalar (.address a)) ∧
        (standard shortPointers).valueOfBytes (shortPointers.arrange bytes) .pointer 1 =
          .ok (.address ⟨0, .wildcard⟩) := by
  refine ⟨by simp [wideCast, SymValue.parts], ⟨0x10000, .wildcard⟩, _, _, rfl, by decide, rfl,
    rfl, rfl⟩

end Machine

end SymbolicBytes
