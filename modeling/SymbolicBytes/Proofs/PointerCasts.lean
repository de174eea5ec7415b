import SymbolicBytes.Proofs.Conversions
import SymbolicBytes.Proofs.IntegerCasts
import SymbolicBytes.Proofs.RoundTrip
/-!
# Conversions of pointers

Pointers and integers of as many bytes as pointers have, converted into each other by the address
space, and read as each other byte by byte. With flat addresses the two are one: both keep the low
bits of an address, and both make an address of an unsigned number, which is in the range of
pointers already (`castsPointers`).

That the bytes agree rests on what the bytes of a number are read as: as an integer its low bits
(`ofBytes_kind`), and as a pointer the address of the number (`ofBytes_pointer`).
-/

namespace SymbolicBytes

namespace IntKind

/-- The number of bytes in memory, of which pointer-sized integers have as many as pointers. -/
def bytes (target : Target) : IntKind → Nat
  | fixed w => w.bytes
  | pointerSized => target.pointerSize

variable {target : Target}

theorem byteSize_ty (kind : IntKind) : target.byteSize kind.ty = kind.bytes target := by
  cases kind with
  | fixed w => simp only [ty, bytes, Target.byteSize, IntWidth.ofNat?_bits, Option.map_some,
      Option.getD_some]
  | pointerSized => rfl

theorem ty_ne_pointer (kind : IntKind) : kind.ty ≠ .pointer := by cases kind <;> nofun

theorem supported_ty (kind : IntKind) : kind.ty.Supported := by
  cases kind with
  | fixed w => exact Scalar.supported_ty (.int ⟨w, 0⟩)
  | pointerSized => exact Scalar.supported_ty (.iptr 0)

/-- The bits of an integer fit into its bytes; the byte of a single bit has room for eight. -/
theorem two_pow_bits_dvd (hp : 8 * target.pointerSize < 2 ^ 32) (kind : IntKind) :
    2 ^ kind.bits target.pointerBits ∣ 256 ^ kind.bytes target := by
  cases kind with
  | fixed w =>
    change 2 ^ w.bits ∣ 256 ^ w.bytes
    cases w <;> decide
  | pointerSized => exact dvd_of_eq (Target.pow_pointerSize hp).symm

theorem ty_scalar {n : Nat} (kind : IntKind) (word : BitVec (kind.bits n)) :
    (kind.scalar word).ty = kind.ty := by
  cases kind <;> rfl

end IntKind

namespace Machine

variable {machine : Machine} {target : Target}

/-! ## Reading bytes as another type -/

theorem bytesOf_scalar (s : Scalar) (t : Ty) : machine.bytesOf (.scalar s) t =
    .ok (some ((List.range (machine.target.byteSize t)).map (machine.scalarByte s))) := by
  rw [bytesOf, gather_eq_some_iff, List.forall₂_map_right_iff, List.forall₂_same]
  intro i _
  rw [byteAt]

/-- A scalar that is read as another type is built from as many of its bytes as that type has. -/
theorem bitcast_scalar {s : Scalar} {t : Ty} (hne : s.ty ≠ t) (ht : t.Supported)
    (hsize : machine.target.byteSize s.ty = machine.target.byteSize t) :
    machine.bitcast s.ty (.scalar s) t = machine.ofBytes t
      ((List.range (machine.target.byteSize t)).map (machine.scalarByte s)) := by
  rw [bitcast_eq_ofBytes hne s.supported_ty ht hsize (bytesOf_scalar s s.ty), hsize]

/-- As an integer, the bytes of a number are read as its low bits. -/
theorem ofBytes_kind (hp : 8 * machine.target.pointerSize < 2 ^ 32) {kind : IntKind} {n : Nat}
    {byte : Nat → UInt8} (hbyte : ∀ i, byte i = byteOfNat n i) :
    machine.ofBytes kind.ty ((List.range (machine.target.byteSize kind.ty)).map byte) =
      .ok (kind.value (BitVec.ofNat (kind.bits machine.target.pointerBits) n)) := by
  have hcheck : machine.checkBytes kind.ty
      ((List.range (machine.target.byteSize kind.ty)).map byte).length = .ok () :=
    checkBytes_eq_ok_iff.2 ⟨kind.supported_ty, by simp⟩
  have hnat : natOfBytes ((List.range (machine.target.byteSize kind.ty)).map byte) =
      n % 256 ^ kind.bytes machine.target := by
    rw [funext hbyte, natOfBytes_map_byteOfNat, kind.byteSize_ty]
  -- what is above the bytes is above the bits as well
  have hword : BitVec.ofNat (kind.bits machine.target.pointerBits)
      (n % 256 ^ kind.bytes machine.target) = BitVec.ofNat _ n := by
    apply BitVec.eq_of_toNat_eq
    rw [BitVec.toNat_ofNat, BitVec.toNat_ofNat, Nat.mod_mod_of_dvd n (kind.two_pow_bits_dvd hp)]
  unfold ofBytes
  rw [hcheck, Outcome.ok_bind]
  cases kind with
  | fixed w =>
    have hfixed : ∀ m, FixedInt.ofNat? w.bits m = some ⟨w, BitVec.ofNat w.bits m⟩ := by
      simp [FixedInt.ofNat?]
    simp only [IntKind.ty] at hnat ⊢
    simp only [hfixed, hnat]
    exact congrArg (fun word => Except.ok (Value.int ⟨w, word⟩)) hword
  | pointerSized =>
    have hlow : n % 256 ^ machine.target.pointerSize =
        (BitVec.ofNat machine.target.pointerBits n).toNat := by
      rw [Target.pow_pointerSize hp, BitVec.toNat_ofNat]
    simp only [IntKind.ty] at hnat ⊢
    rw [hnat]
    exact congrArg (fun m : Nat => Except.ok (Value.iptr m)) hlow

/-- As a pointer, the bytes of a number in the range of pointers are read as that address. -/
theorem ofBytes_pointer (hflat : machine.addresses = .flat) {n : Nat}
    (hn : n < 256 ^ machine.target.pointerSize) {byte : Nat → UInt8}
    (hbyte : ∀ i, byte i = byteOfNat n i) :
    machine.ofBytes .pointer ((List.range (machine.target.byteSize .pointer)).map byte) =
      .ok (.address ⟨BitVec.ofNat 64 n, .wildcard⟩) := by
  have hcheck : machine.checkBytes .pointer
      ((List.range (machine.target.byteSize .pointer)).map byte).length = .ok () :=
    checkBytes_eq_ok_iff.2 ⟨rfl, by simp⟩
  have hnat : natOfBytes ((List.range (machine.target.byteSize .pointer)).map byte) = n :=
    natOfBytes_of_lt hbyte hn
  unfold ofBytes
  rw [hcheck, Outcome.ok_bind]
  simp only [hnat, hflat, AddressSpace.flat, BitVec.ofInt_natCast, Outcome.map_ok]

/-! ## Bytes of pointers and integers -/

theorem scalarByte_kind {n : Nat} (kind : IntKind) (word : BitVec (kind.bits n)) (i : Nat) :
    machine.scalarByte (kind.scalar word) i = byteOfNat word.toNat i := by
  cases kind with
  | fixed w => rfl
  | pointerSized => exact byteOfInt_natCast ..

theorem scalarByte_address (hflat : machine.addresses = .flat) (a : Address) (i : Nat) :
    machine.scalarByte (.address a) i = byteOfNat a.bits.toNat i := by
  rw [scalarByte, hflat]
  exact byteOfInt_natCast ..

/-! ## Conversions -/

/-- An address that is read as an integer of its size is cut to that size. -/
theorem convert_pointerBytes (hp : target.pointerSize ≤ 8) {kind : IntKind}
    (hkind : kind.bytes target = target.pointerSize) (a : Address) :
    (standard target).convert .bitcast .pointer (.address a) kind.ty =
      .ok (kind.value (a.bits.setWidth (kind.bits target.pointerBits))) := by
  have hsize : target.byteSize (Scalar.address a).ty = target.byteSize kind.ty :=
    (kind.byteSize_ty.trans hkind).symm
  have hbits : BitVec.ofNat (kind.bits target.pointerBits) a.bits.toNat = a.bits.setWidth _ :=
    BitVec.ofNat_toNat ..
  refine (bitcast_scalar (s := .address a) kind.ty_ne_pointer.symm kind.supported_ty hsize).trans ?_
  have hbytes : 8 * target.pointerSize < 2 ^ 32 := by omega
  rw [ofBytes_kind (n := a.bits.toNat) hbytes (scalarByte_address rfl a), ← hbits]
  rfl

/-- An integer of the size of pointers that is read as a pointer is the address of its unsigned
number. -/
theorem convert_integerBytes (hp : target.pointerSize ≤ 8) {kind : IntKind}
    (hkind : kind.bytes target = target.pointerSize)
    (word : BitVec (kind.bits target.pointerBits)) :
    (standard target).convert .bitcast kind.ty (kind.value word) .pointer =
      .ok (.address ⟨word.setWidth 64, .wildcard⟩) := by
  have hsize : target.byteSize (kind.scalar word).ty = target.byteSize .pointer := by
    rw [kind.ty_scalar, kind.byteSize_ty, hkind, Target.byteSize]
  have hlt : word.toNat < 256 ^ target.pointerSize := by
    refine Nat.lt_of_lt_of_le word.isLt (Nat.le_of_dvd (Nat.pow_pos (by decide)) ?_)
    rw [← hkind]
    exact kind.two_pow_bits_dvd (by omega)
  have hne : (kind.scalar word).ty ≠ .pointer := kind.ty_scalar word ▸ kind.ty_ne_pointer
  have hbitcast := @bitcast_scalar (standard target) _ _ hne rfl hsize
  rw [kind.ty_scalar] at hbitcast
  refine hbitcast.trans ?_
  rw [ofBytes_pointer rfl hlt (scalarByte_kind kind word), BitVec.ofNat_toNat]

/-- An address that is converted is cut to the width of the integer, with no regard to its bytes. -/
theorem convert_ptrtoint (kind : IntKind) (a : Address) :
    (standard target).convert .ptrtoint .pointer (.address a) kind.ty =
      .ok (kind.value (a.bits.setWidth (kind.bits target.pointerBits))) := by
  have hword := ofInt_toNat_eq_setWidth a.bits
  cases kind with
  | fixed w =>
    have hfixed : FixedInt.ofInt? w.bits (a.bits.toNat : Int) =
        some ⟨w, a.bits.setWidth w.bits⟩ := by
      simp [FixedInt.ofInt?, hword]
    simp only [IntKind.ty, convert, castPointers, castPointer, standard, AddressSpace.flat, hfixed]
    rfl
  | pointerSized =>
    simp only [IntKind.ty, convert, castPointers, castPointer, standard, AddressSpace.flat,
      wrapUnsigned, hword]
    rfl

/-- An integer that is converted is the address of its unsigned number. It is not cut to the size of
pointers, but an integer of that size has nothing to lose. -/
theorem convert_inttoptr (kind : IntKind) (word : BitVec (kind.bits target.pointerBits)) :
    (standard target).convert .inttoptr kind.ty (kind.value word) .pointer =
      .ok (.address ⟨word.setWidth 64, .wildcard⟩) := by
  rw [← ofInt_toNat_eq_setWidth]
  cases kind <;> rfl

/-! ## Converted operands -/

theorem concretizeWithin_kind {levels : Nat} (kind : IntKind)
    (word : BitVec (kind.bits target.pointerBits)) :
    (standard target).concretizeWithin (levels + 1) (.scalar (kind.scalar word)) =
      .ok (kind.value word) := by
  cases kind with
  | fixed w => rfl
  | pointerSized =>
    have hword : BitVec.ofInt target.pointerBits (BitVec.toNat word : Int) = word :=
      ofInt_toNat word
    exact congrArg (fun w : BitVec _ => Except.ok (Value.iptr w.toNat)) hword

theorem setWidth_setWidth_of_lt {m n : Nat} {x : BitVec m} (h : x.toNat < 2 ^ n) :
    (x.setWidth n).setWidth m = x := by
  apply BitVec.eq_of_toNat_eq
  rw [BitVec.toNat_setWidth, BitVec.toNat_setWidth, Nat.mod_eq_of_lt h, Nat.mod_eq_of_lt x.isLt]

/-- What is to be shown of conversions between pointers and integers. -/
structure CastsPointers (target : Target) : Prop where
  /-- a pointer is converted to an integer of as many bytes by reading its bytes as one -/
  ptrtoint_eq : ∀ kind : IntKind, kind.bytes target = target.pointerSize →
    ∀ (x : SymValue) (a : Address), (standard target).concretize x = .ok (.address a) →
      (standard target).concretize (.cast .ptrtoint .pointer x kind.ty) =
        (standard target).concretize (.cast .bitcast .pointer x kind.ty)
  /-- and an integer of as many bytes as pointers have by reading its bytes as a pointer -/
  inttoptr_eq : ∀ kind : IntKind, kind.bytes target = target.pointerSize →
    ∀ (x : SymValue) (word : BitVec (kind.bits target.pointerBits)),
      (standard target).concretize x = .ok (kind.value word) →
      (standard target).concretize (.cast .inttoptr kind.ty x .pointer) =
        (standard target).concretize (.cast .bitcast kind.ty x .pointer)
  /-- that integer has the low bits of the address -/
  ptrtoint : ∀ (kind : IntKind) (a : Address),
    (standard target).concretize (.cast .ptrtoint .pointer (.scalar (.address a)) kind.ty) =
      .ok (kind.value (a.bits.setWidth (kind.bits target.pointerBits)))
  /-- and that pointer the bits of the integer, with zeros above them -/
  inttoptr : ∀ (kind : IntKind) (word : BitVec (kind.bits target.pointerBits)),
    (standard target).concretize (.cast .inttoptr kind.ty (.scalar (kind.scalar word)) .pointer) =
      .ok (.address ⟨word.setWidth 64, .wildcard⟩)
  /-- an address in the range of pointers is converted to a pointer-sized integer and back -/
  inttoptr_ptrtoint : ∀ a : Address, a.bits.toNat < 2 ^ target.pointerBits →
    (standard target).concretize
        (.cast .inttoptr .iptr (.cast .ptrtoint .pointer (.scalar (.address a)) .iptr) .pointer) =
      .ok (.address ⟨a.bits, .wildcard⟩)
  /-- a pointer-sized integer in the unsigned range is converted to a pointer and back -/
  ptrtoint_inttoptr : ∀ int : Int, 0 ≤ int → int < 2 ^ target.pointerBits →
    (standard target).concretize
        (.cast .ptrtoint .pointer (.cast .inttoptr .iptr (.scalar (.iptr int)) .pointer) .iptr) =
      .ok (.iptr int)

/-- Converting pointers to integers of their size, and back, is reading them as each other byte by
byte. An address in the range of pointers is the same after the way there and back, and so is an
integer in the unsigned range. Beyond these the conversions agree with the bytes still, as both keep
the low bits. -/
theorem castsPointers (hp : target.pointerSize ≤ 8) : CastsPointers target := by
  have hbits : target.pointerBits ≤ 64 := by
    rw [Target.pointerBits]
    omega
  constructor
  case ptrtoint_eq =>
    intro kind hkind x a hx
    apply concretize_cast_congr hx
    exact (convert_ptrtoint kind a).trans (convert_pointerBytes hp hkind a).symm
  case inttoptr_eq =>
    intro kind hkind x word hx
    apply concretize_cast_congr hx
    exact (convert_inttoptr kind word).trans (convert_integerBytes hp hkind word).symm
  case ptrtoint =>
    intro kind a
    have ha : (standard target).concretizeWithin depthLimit (.scalar (.address a)) =
        .ok (.address a) := rfl
    exact (concretizeWithin_cast ha rfl).trans (convert_ptrtoint kind a)
  case inttoptr =>
    intro kind word
    have hword : (standard target).concretizeWithin depthLimit (.scalar (kind.scalar word)) =
        .ok (kind.value word) := concretizeWithin_kind kind word
    exact (concretizeWithin_cast hword rfl).trans (convert_inttoptr kind word)
  case inttoptr_ptrtoint =>
    -- the way there keeps the low bits, which for an address in range are all of it
    intro a ha
    have hinner : (standard target).concretizeWithin depthLimit
        (.cast .ptrtoint .pointer (.scalar (.address a)) .iptr) = .ok _ :=
      (concretizeWithin_cast (v := .address a) rfl rfl).trans (convert_ptrtoint .pointerSized a)
    refine (concretizeWithin_cast hinner rfl).trans ((convert_inttoptr .pointerSized _).trans ?_)
    rw [IntKind.bits, setWidth_setWidth_of_lt ha]
  case ptrtoint_inttoptr =>
    -- an integer in the unsigned range is its own word, and a word fits into an address
    intro int hlow hhigh
    have hinner : (standard target).concretizeWithin depthLimit
        (.cast .inttoptr .iptr (.scalar (.iptr int)) .pointer) = .ok _ :=
      (concretizeWithin_cast (v := .iptr (wrapUnsigned target.pointerBits int)) rfl rfl).trans
        (convert_inttoptr .pointerSized (BitVec.ofInt target.pointerBits int))
    refine (concretizeWithin_cast hinner rfl).trans ((convert_ptrtoint .pointerSized _).trans ?_)
    have hback : ((BitVec.ofInt target.pointerBits int).toNat : Int) = int := by
      rw [← wrapUnsigned, wrapUnsigned_eq_emod, Int.emod_eq_of_lt hlow hhigh]
    have hword : ((BitVec.ofInt target.pointerBits int).setWidth 64).setWidth target.pointerBits =
        BitVec.ofInt target.pointerBits int := by
      rw [BitVec.setWidth_setWidth (fun h => Nat.not_lt_of_le hbits h.1), BitVec.setWidth_eq]
    rw [← hword] at hback
    exact congrArg (fun i => Except.ok (Value.iptr i)) hback

/-- A target with pointers of one byte. -/
def bytePointers : Target :=
  { Target.standard with
    pointerSize := 1
    pointerSize_le := by decide }

/-- An address beyond one byte loses what is above it, whether it is converted to an integer of one
byte or its byte is read as one. -/
theorem castsPointers_bytePointers :
    bytePointers.pointerSize ≤ 8 ∧ CastsPointers bytePointers ∧
      (standard bytePointers).concretize
          (.cast .ptrtoint .pointer (.scalar (.address ⟨0x1fe, .nil⟩)) (.int 8)) =
        .ok (.int ⟨.i8, 0xfe⟩) ∧
      (standard bytePointers).concretize
          (.cast .bitcast .pointer (.scalar (.address ⟨0x1fe, .nil⟩)) (.int 8)) =
        .ok (.int ⟨.i8, 0xfe⟩) ∧
      (standard bytePointers).concretize
          (.cast .bitcast .pointer (.scalar (.address ⟨0x1fe, .nil⟩)) .bit) = .ok (.bit false) :=
  ⟨by decide, castsPointers (by decide), rfl, rfl, rfl⟩

end Machine

end SymbolicBytes
