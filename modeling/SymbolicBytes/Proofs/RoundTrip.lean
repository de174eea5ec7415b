import SymbolicBytes.Proofs.Integers
import SymbolicBytes.Proofs.Rebuilding
import SymbolicBytes.Proofs.ZeroValues
/-!
# Values from their own bytes

A value without poison is rebuilt from its image, up to the provenance of its addresses
(`ofBytes_image`), provided its pointer-sized scalars fit into a pointer (`Target.Fits`). Where the
only poison is of types without bytes, the image does not tell it from the zero values of those
types, and what is rebuilt has these in its place (`ofBytes_image_fillEmptyPoison`).
-/

namespace SymbolicBytes

/-- Whether a scalar fits into the bytes of its type. Only pointer-sized scalars may fail to. -/
def Target.Fits (target : Target) : Scalar → Prop
  | .address a => a.bits.toNat < 2 ^ target.pointerBits
  | .iptr int => 0 ≤ int ∧ int < 2 ^ target.pointerBits
  | _ => True

/-- The bytes of a pointer hold as many numbers as its bits, unless there are so many bits that
their number is cut. -/
theorem Target.pow_pointerSize {target : Target} (h : 8 * target.pointerSize < 2 ^ 32) :
    256 ^ target.pointerSize = 2 ^ target.pointerBits := by
  have hle : 8 * target.pointerSize ≤ UInt32.size - 1 := Nat.le_sub_one_of_lt h
  have hbits : target.pointerBits = 8 * target.pointerSize := Nat.min_eq_left hle
  rw [hbits, Nat.pow_mul]

theorem Scalar.supported_ty (s : Scalar) : s.ty.Supported := by
  cases s <;> simp [Scalar.ty, Ty.Supported, Ty.unsupported?]

namespace Machine

variable {machine : Machine}

/-- A scalar that fits is rebuilt from its bytes. An address comes back with the provenance of
integers, as bytes do not tell where it points into. -/
theorem ofBytes_scalar (hflat : machine.addresses = .flat) (hp : machine.target.pointerSize ≤ 8)
    {s : Scalar} (hs : machine.target.Fits s) :
    machine.ofBytes s.ty
        ((List.range (machine.target.byteSize s.ty)).map (machine.scalarByte s)) =
      .ok (Value.scalar s).withWildcards := by
  have hcheck : machine.checkBytes s.ty
      ((List.range (machine.target.byteSize s.ty)).map (machine.scalarByte s)).length = .ok () :=
    checkBytes_eq_ok_iff.2 ⟨s.supported_ty, by simp⟩
  unfold ofBytes
  rw [hcheck]
  cases s with
  | int i =>
    have hnat : natOfBytes ((List.range (machine.target.byteSize (.int i.width.bits))).map
        (machine.scalarByte (.int i))) = i.toNat := by
      rw [Target.byteSize, IntWidth.ofNat?_bits]
      exact natOfBytes_of_lt (fun _ => rfl)
        (Nat.lt_of_lt_of_le i.bits.isLt i.width.two_pow_bits_le)
    simp only [Scalar.ty, Outcome.ok_bind, hnat, FixedInt.ofNat?_toNat, Outcome.pure_eq_ok]
    rfl
  | address a =>
    -- a flat address is its bits, as an integer that is never negative
    obtain ⟨bits, provenance⟩ := a
    have hbyte : ∀ i, machine.scalarByte (.address ⟨bits, provenance⟩) i =
        byteOfNat bits.toNat i := by
      intro i
      rw [scalarByte, hflat]
      exact byteOfInt_natCast ..
    have hnat : natOfBytes ((List.range (machine.target.byteSize .pointer)).map
        (machine.scalarByte (.address ⟨bits, provenance⟩))) = bits.toNat := by
      apply natOfBytes_of_lt hbyte
      rw [Target.byteSize, Target.pow_pointerSize (by omega)]
      exact hs
    simp only [Scalar.ty, Outcome.ok_bind, hnat, hflat, AddressSpace.flat, Outcome.map_ok,
      BitVec.ofInt_natCast, BitVec.ofNat_toNat, BitVec.setWidth_eq, Value.withWildcards]
  | iptr int =>
    obtain ⟨n, rfl⟩ := Int.eq_ofNat_of_zero_le hs.1
    have hnat : natOfBytes ((List.range (machine.target.byteSize .iptr)).map
        (machine.scalarByte (.iptr n))) = n := by
      apply natOfBytes_of_lt (fun _ => byteOfInt_natCast ..)
      rw [Target.byteSize, Target.pow_pointerSize (by omega)]
      exact_mod_cast hs.2
    simp only [Scalar.ty, Outcome.ok_bind, hnat, Outcome.pure_eq_ok]
    rfl
  | float x =>
    have hnat : natOfBytes ((List.range (machine.target.byteSize (.float .float))).map
        (machine.scalarByte (.float x))) = x.toNat := natOfBytes_of_lt (fun _ => rfl) x.isLt
    simp only [Scalar.ty, Outcome.ok_bind, hnat, Outcome.pure_eq_ok, BitVec.ofNat_toNat,
      BitVec.setWidth_eq]
    rfl
  | double x =>
    have hnat : natOfBytes ((List.range (machine.target.byteSize (.float .double))).map
        (machine.scalarByte (.double x))) = x.toNat := natOfBytes_of_lt (fun _ => rfl) x.isLt
    simp only [Scalar.ty, Outcome.ok_bind, hnat, Outcome.pure_eq_ok, BitVec.ofNat_toNat,
      BitVec.setWidth_eq]
    rfl

/-- Pointer-sized scalars that are built from bytes fit, as there are no more bits in their bytes.
-/
theorem fits_ofBytes (hflat : machine.addresses = .flat) (hp : machine.target.pointerSize ≤ 8)
    {t : Ty} {bytes : List UInt8} {v : Value} (h : machine.ofBytes t bytes = .ok v) :
    v.ScalarsIn machine.target.Fits := by
  refine scalarsIn_ofBytes ?_ h
  intro s bytes hs
  -- as many bytes as a pointer has spell no more than a pointer holds
  have hlt : bytes.length = machine.target.pointerSize →
      natOfBytes bytes < 2 ^ machine.target.pointerBits := by
    intro hlen
    rw [← Target.pow_pointerSize (by omega), ← hlen]
    exact natOfBytes_lt bytes
  unfold ofBytes at hs
  obtain ⟨_, hcheck, hs⟩ := Outcome.bind_eq_ok.1 hs
  have hlen := (checkBytes_eq_ok_iff.1 hcheck).2
  cases s with
  | address a =>
    simp only [Scalar.ty, hflat, AddressSpace.flat, Outcome.map_ok, Except.ok.injEq,
      Value.scalar.injEq, Scalar.address.injEq] at hs
    subst hs
    simp only [Target.Fits, BitVec.ofInt_natCast, BitVec.toNat_ofNat]
    exact Nat.lt_of_le_of_lt (Nat.mod_le ..) (hlt hlen)
  | iptr int =>
    cases hs
    exact ⟨Int.natCast_nonneg _, by exact_mod_cast hlt hlen⟩
  | _ => trivial

/-- Members are rebuilt from their images laid end to end, since each takes as many bytes as its
type has. -/
theorem membersOfBytes_images {vs : List Value} {ts : List Ty}
    (h : List.Forall₂ (fun v t =>
      (machine.image v).length = machine.target.byteSize t ∧ ∀ bytes : List UInt8,
        machine.image v = bytes.map some → machine.ofBytes t bytes = .ok v.withWildcards) vs ts)
    {bytes : List UInt8} (himages : machine.images vs = bytes.map some) :
    machine.membersOfBytes ts bytes = .ok (vs.map Value.withWildcards) := by
  induction h generalizing bytes with
  | nil =>
    obtain rfl := List.map_eq_nil_iff.1 himages.symm
    rfl
  | @cons v t vs ts hv _ ih =>
    obtain ⟨hlen, hbuild⟩ := hv
    obtain ⟨chunk, rest, rfl, hchunk, hrest⟩ := List.map_eq_append_iff.1 himages.symm
    have hsize : machine.target.byteSize t = chunk.length := by
      rw [← hlen, ← hchunk, List.length_map]
    have hcut : cut t (machine.target.byteSize t) (chunk ++ rest) = .ok (chunk, rest) := by
      simp [cut, hsize, List.splitAt_eq]
    simp only [membersOfBytes_cons, hcut, Outcome.ok_bind, hbuild chunk hchunk.symm, ih hrest.symm,
      Outcome.pure_eq_ok, List.map_cons]

/-- Whether a scalar is rebuilt from its bytes. -/
def Rebuilds (machine : Machine) (s : Scalar) : Prop :=
  machine.ofBytes s.ty ((List.range (machine.target.byteSize s.ty)).map (machine.scalarByte s)) =
    .ok (Value.scalar s).withWildcards

/-- A value without poison is rebuilt from its image if every scalar in it is rebuilt from its
bytes. The induction is on the value, and its type tells how the bytes are shared out among the
members. -/
theorem ofBytes_image_of_rebuilds {v : Value} {t : Ty} (hty : v.HasTy t) (ht : t.Supported)
    (hsize : machine.target.exactSize t ≤ maxSize) (hscalars : v.ScalarsIn machine.Rebuilds)
    (hfree : v.PoisonFree) {bytes : List UInt8} (himage : machine.image v = bytes.map some) :
    machine.ofBytes t bytes = .ok v.withWildcards := by
  have hlen : bytes.length = machine.target.byteSize t := by
    rw [machine.target.byteSize_eq_exactSize hsize, ← length_image hty, himage, List.length_map]
  induction v using Value.byMembers generalizing t bytes with
  | scalar s =>
    obtain rfl := hty.scalar_eq
    have hbytes : bytes =
        (List.range (machine.target.byteSize s.ty)).map (machine.scalarByte s) := by
      apply (List.map_inj_right fun _ _ => Option.some.inj).1
      rw [← himage, image_scalar, List.map_map]
      rfl
    rw [hbytes]
    exact Value.scalarsIn_scalar.1 hscalars
  | void =>
    cases hty
    rw [ofBytes, checkBytes_eq_ok_iff.2 ⟨ht, hlen⟩]
    rfl
  | poison ty => exact absurd hfree (Value.not_poisonFree_poison ty)
  | aggregate kind members ih =>
    obtain ⟨hkind, hmembers⟩ := hty.members
    rw [Value.scalarsIn_aggregate] at hscalars
    rw [Value.poisonFree_aggregate] at hfree
    have hbuild : List.Forall₂ (fun v m =>
        (machine.image v).length = machine.target.byteSize m ∧ ∀ bytes : List UInt8,
          machine.image v = bytes.map some → machine.ofBytes m bytes = .ok v.withWildcards)
        members t.memberTys := by
      apply forall₂_of_mem hmembers
      intro v hv m hmt hm
      have hmsize := Nat.le_trans (machine.target.exactSize_le_of_mem hmt) hsize
      have hmlen : (machine.image v).length = machine.target.byteSize m := by
        rw [length_image hm, machine.target.byteSize_eq_exactSize hmsize]
      refine ⟨hmlen, ?_⟩
      intro chunk hchunk
      apply ih v hv hm (ht.of_mem hmt) hmsize (hscalars v hv) (hfree v hv) hchunk
      rw [← hmlen, hchunk, List.length_map]
    rw [image_aggregate] at himage
    rw [ofBytes_aggregate hkind, checkBytes_eq_ok_iff.2 ⟨ht, hlen⟩,
      membersOfBytes_images hbuild himage, Value.withWildcards, Value.withWildcardsAll_eq_map]
    rfl

/-- A value without poison is rebuilt from its image, up to the provenance of its addresses. A
pointer-sized scalar of more bits than a pointer has would come back without them. -/
theorem ofBytes_image (hflat : machine.addresses = .flat) (hp : machine.target.pointerSize ≤ 8)
    {v : Value} {t : Ty} (hty : v.HasTy t) (ht : t.Supported)
    (hsize : machine.target.exactSize t ≤ maxSize) (hfits : v.ScalarsIn machine.target.Fits)
    (hfree : v.PoisonFree) {bytes : List UInt8} (himage : machine.image v = bytes.map some) :
    machine.ofBytes t bytes = .ok v.withWildcards :=
  ofBytes_image_of_rebuilds hty ht hsize (fun s hs => ofBytes_scalar hflat hp (hfits s hs)) hfree
    himage

end Machine

/-! ## Poison without bytes -/

mutual

/-- The value with the zero value in the place of all poison of a type without bytes. -/
def Value.fillEmptyPoison (target : Target) : Value → Value
  | .scalar s => .scalar s
  | .aggregate kind members => .aggregate kind (fillEmptyPoisonAll target members)
  | .void => .void
  | .poison ty =>
    if target.byteSize ty = 0 then (AddressSpace.flat.zeroValue ty).toOption.getD (.poison ty)
    else .poison ty

/-- The listed values with the zero values in the place of all poison of types without bytes. -/
def Value.fillEmptyPoisonAll (target : Target) : List Value → List Value
  | [] => []
  | v :: vs => fillEmptyPoison target v :: fillEmptyPoisonAll target vs

end

namespace Value

theorem fillEmptyPoisonAll_eq_map (target : Target) (vs : List Value) :
    fillEmptyPoisonAll target vs = vs.map (fillEmptyPoison target) := by
  induction vs with
  | nil => simp [fillEmptyPoisonAll]
  | cons v vs ih => simp [fillEmptyPoisonAll, ih]

@[simp] theorem fillEmptyPoison_scalar (target : Target) (s : Scalar) :
    fillEmptyPoison target (.scalar s) = .scalar s := rfl

@[simp] theorem fillEmptyPoison_void (target : Target) : fillEmptyPoison target .void = .void := rfl

theorem fillEmptyPoison_aggregate (target : Target) (kind : AggregateKind) (members : List Value) :
    fillEmptyPoison target (.aggregate kind members) =
      .aggregate kind (members.map (fillEmptyPoison target)) :=
  congrArg (aggregate kind) (fillEmptyPoisonAll_eq_map target members)

/-- Poison is left as it is or makes way for the zero value of a type without bytes. Of a type that
has bytes it is kept, as those bytes are poison and would be missed. -/
theorem fillEmptyPoison_poison (target : Target) (ty : Ty) :
    fillEmptyPoison target (.poison ty) = .poison ty ∨
      target.byteSize ty = 0 ∧
        AddressSpace.flat.zeroValue ty = .ok (fillEmptyPoison target (.poison ty)) := by
  rw [fillEmptyPoison]
  split
  · rename_i hsize
    cases hzero : AddressSpace.flat.zeroValue ty with
    | error fault => exact .inl rfl
    | ok zero => exact .inr ⟨hsize, rfl⟩
  · exact .inl rfl

/-- What takes the place of poison has the type of the poison. -/
theorem HasTy.fillEmptyPoison (target : Target) {v : Value} {t : Ty} (h : v.HasTy t) :
    (v.fillEmptyPoison target).HasTy t := by
  induction v using byMembers generalizing t with
  | scalar s => exact h
  | void => exact h
  | poison ty =>
    rcases fillEmptyPoison_poison target ty with hself | ⟨-, hzero⟩
    · rwa [hself]
    · rw [h.poison_eq]
      exact AddressSpace.hasTy_zeroValue hzero
  | aggregate kind members ih =>
    obtain ⟨hkind, hmembers⟩ := h.members
    rw [fillEmptyPoison_aggregate]
    exact .aggregate hkind
      (List.forall₂_map_left_iff.2 (forall₂_of_mem hmembers fun v hv m _ hm => ih v hv hm))

theorem scalarsIn_fillEmptyPoison {target : Target} {v : Value} (h : v.ScalarsIn target.Fits) :
    (v.fillEmptyPoison target).ScalarsIn target.Fits := by
  induction v using byMembers with
  | scalar s => exact h
  | void => exact h
  | poison ty =>
    rcases fillEmptyPoison_poison target ty with hself | ⟨-, hzero⟩
    · rwa [hself]
    · -- zero fits into a pointer of any size
      refine AddressSpace.scalarsIn_zeroValue ?_ hzero
      intro s hs
      cases s with
      | address a =>
        cases hs
        exact Nat.two_pow_pos _
      | iptr int =>
        cases hs
        exact ⟨Int.le_refl 0, Int.pow_pos (by decide)⟩
      | _ => trivial
  | aggregate kind members ih =>
    rw [fillEmptyPoison_aggregate]
    rw [scalarsIn_aggregate] at h ⊢
    intro v hv
    obtain ⟨w, hw, rfl⟩ := List.mem_map.1 hv
    exact ih w hw (h w hw)

/-- Where the only poison is of types without bytes, none is left, and what was proved of values
without poison applies. -/
theorem poisonFree_fillEmptyPoison {target : Target} {v : Value} {t : Ty} (h : v.HasTy t)
    (ht : t.Supported) (hv : target.NoPoisonBytes v) : (v.fillEmptyPoison target).PoisonFree := by
  induction v using byMembers generalizing t with
  | scalar s => simp
  | void => simp
  | poison ty =>
    -- a type with values has a zero value to take the place of its poison
    rw [h.poison_eq] at ht
    obtain ⟨zero, hzero⟩ := AddressSpace.exists_zeroValue_eq_ok ty ht
    rw [fillEmptyPoison, if_pos (Target.noPoisonBytes_poison.1 hv), hzero]
    exact AddressSpace.poisonFree_zeroValue hzero
  | aggregate kind members ih =>
    obtain ⟨hkind, hmembers⟩ := h.members
    rw [fillEmptyPoison_aggregate, poisonFree_aggregate]
    rw [Target.noPoisonBytes_aggregate] at hv
    intro v hmem
    obtain ⟨w, hw, rfl⟩ := List.mem_map.1 hmem
    obtain ⟨m, hm, hwm⟩ := exists_mem_of_forall₂ hmembers hw
    exact ih w hw hwm (ht.of_mem hm) (hv w hw)

end Value

namespace Machine

variable {machine : Machine}

/-- Nothing that has bytes is replaced, so the image stays what it was. -/
theorem image_fillEmptyPoison {v : Value} {t : Ty} (h : v.HasTy t) :
    machine.image (v.fillEmptyPoison machine.target) = machine.image v := by
  induction v using Value.byMembers generalizing t with
  | scalar s => rfl
  | void => rfl
  | poison ty =>
    rcases Value.fillEmptyPoison_poison machine.target ty with hself | ⟨hsize, hzero⟩
    · rw [hself]
    · -- both images have the length of a type without bytes
      have hexact := (machine.target.byteSize_eq_zero_iff ty).1 hsize
      rw [List.eq_nil_of_length_eq_zero
        ((length_image (AddressSpace.hasTy_zeroValue hzero)).trans hexact), image, hexact]
      rfl
  | aggregate kind members ih =>
    obtain ⟨hkind, hmembers⟩ := h.members
    rw [Value.fillEmptyPoison_aggregate, image_aggregate, image_aggregate, images_eq_flatMap,
      images_eq_flatMap, List.flatMap_map]
    apply List.flatMap_congr
    intro v hv
    obtain ⟨m, -, hm⟩ := exists_mem_of_forall₂ hmembers hv
    exact ih v hv hm

/-- A value whose only poison is of types without bytes is rebuilt from its image, up to the
provenance of its addresses and with zero values in the place of that poison. An image has no room
to tell this poison from the one value that its type has besides. -/
theorem ofBytes_image_fillEmptyPoison (hflat : machine.addresses = .flat)
    (hp : machine.target.pointerSize ≤ 8) {v : Value} {t : Ty} (hty : v.HasTy t) (ht : t.Supported)
    (hsize : machine.target.exactSize t ≤ maxSize) (hfits : v.ScalarsIn machine.target.Fits)
    (hpoison : machine.target.NoPoisonBytes v) {bytes : List UInt8}
    (himage : machine.image v = bytes.map some) :
    machine.ofBytes t bytes = .ok (v.fillEmptyPoison machine.target).withWildcards :=
  ofBytes_image hflat hp (hty.fillEmptyPoison _) ht hsize (Value.scalarsIn_fillEmptyPoison hfits)
    (Value.poisonFree_fillEmptyPoison hty ht hpoison) ((image_fillEmptyPoison hty).trans himage)

end Machine

end SymbolicBytes
