import SymbolicBytes.Proofs.RoundTrip
/-!
# Values and bytes, both ways

`Machine.byteAt` and `Machine.ofBytes` undo each other. A value without poison is rebuilt from the
bytes that are read from it, up to the provenance of its addresses; and any bytes, as many as a type
with values has, are a value of it from which they are read again, except that a byte which holds a
single bit keeps only that bit (`ofBytes_inverts_byteAt`).

Which bytes of a type hold a single bit is `Target.bitPlaces`. The image of what is rebuilt is then
the bytes that it was rebuilt from, with those places cut down (`image_ofBytes`).
-/

namespace SymbolicBytes

/-! ## Bytes of numbers -/

theorem byteOfNat_natOfBytes_cons_succ (b : UInt8) (bs : List UInt8) (index : Nat) :
    byteOfNat (natOfBytes (b :: bs)) (index + 1) = byteOfNat (natOfBytes bs) index := by
  apply UInt8.toNat_inj.1
  have hdiv : (b.toNat + 256 * natOfBytes bs) / 256 = natOfBytes bs := by
    have hb : b.toNat < 256 := b.toNat_lt
    omega
  rw [toNat_byteOfNat, toNat_byteOfNat, natOfBytes, Nat.pow_succ', ← Nat.div_div_eq_div_mul, hdiv]

/-- The number that bytes spell has those bytes. So bytes are never lost as long as the number is
kept whole. -/
theorem map_byteOfNat_natOfBytes (bs : List UInt8) :
    (List.range bs.length).map (byteOfNat (natOfBytes bs)) = bs := by
  induction bs with
  | nil => rfl
  | cons b bs ih =>
    have hhead : byteOfNat (natOfBytes (b :: bs)) 0 = b := by
      apply UInt8.toNat_inj.1
      have hb : b.toNat < 256 := b.toNat_lt
      rw [toNat_byteOfNat, natOfBytes, Nat.pow_zero, Nat.div_one]
      omega
    have htail : byteOfNat (natOfBytes (b :: bs)) ∘ Nat.succ = byteOfNat (natOfBytes bs) :=
      funext fun index => byteOfNat_natOfBytes_cons_succ b bs index
    rw [List.length_cons, List.range_succ_eq_map, List.map_cons, List.map_map, hhead, htail, ih]

/-! ## Bytes that hold a single bit -/

/-- The bytes, with those cut down to their lowest bit that hold a single bit. -/
def keepBits : List Bool → List UInt8 → List UInt8 :=
  List.zipWith fun single b => if single then b &&& 1 else b

/-- Where no byte holds a single bit, all bytes are kept. -/
theorem keepBits_replicate_false (bytes : List UInt8) :
    keepBits (List.replicate bytes.length false) bytes = bytes := by
  induction bytes with
  | nil => rfl
  | cons b bytes ih => exact congrArg (b :: ·) ih

namespace Target

variable (target : Target)

mutual

/-- For every byte of a value of the type, whether it holds a single bit. -/
def bitPlaces : Ty → List Bool
  | .int width => List.replicate (target.byteSize (.int width)) (width == 1)
  | .pointer | .iptr => List.replicate target.pointerSize false
  | .float kind => List.replicate kind.bytes false
  | .void | .special _ => []
  | .sequence _ count element => (List.replicate count (bitPlaces element)).flatten
  | .record _ fields => bitPlacesAll fields

/-- For every byte of values of the listed types laid end to end, whether it holds a single bit. -/
def bitPlacesAll : List Ty → List Bool
  | [] => []
  | t :: ts => bitPlaces t ++ bitPlacesAll ts

end

theorem bitPlacesAll_eq_flatMap (ts : List Ty) :
    target.bitPlacesAll ts = ts.flatMap target.bitPlaces := by
  induction ts with
  | nil => rw [bitPlacesAll, List.flatMap_nil]
  | cons t ts ih => rw [bitPlacesAll, ih, List.flatMap_cons]

theorem bitPlaces_aggregate {t : Ty} {kind : AggregateKind} (h : t.aggregateKind? = some kind) :
    target.bitPlaces t = t.memberTys.flatMap target.bitPlaces := by
  cases t with
  | sequence k count element => rw [bitPlaces, Ty.memberTys, List.flatMap_replicate]
  | record k fields => rw [bitPlaces, Ty.memberTys, bitPlacesAll_eq_flatMap]
  | _ => cases h

/-- Every byte of a value has a place, so as many places are listed as the type has bytes. -/
theorem length_bitPlaces (t : Ty) : (target.bitPlaces t).length = target.exactSize t := by
  induction t using Ty.byMembers with
  | atom t ht =>
    cases t with
    | sequence k count element => cases ht
    | record k fields => cases ht
    | _ => simp [bitPlaces, exactSize, byteSize]
  | aggregate t kind hkind ih =>
    rw [target.bitPlaces_aggregate hkind, target.exactSize_eq_sum hkind, List.length_flatMap,
      List.map_congr_left ih]

end Target

namespace Machine

variable {machine : Machine}

/-! ## What is read from a value -/

/-- The bytes of an image without poison are read from the value, position by position. Up to the
largest size no position is cut. -/
theorem forall₂_byteAt_of_image {v : Value} {t : Ty} (hty : v.HasTy t)
    (hsize : machine.target.exactSize t ≤ maxSize) {bytes : List UInt8}
    (himage : machine.image v = bytes.map some) :
    List.Forall₂ (fun i b => machine.byteAt v t i = .ok (some b))
      (List.range (machine.target.byteSize t)) bytes := by
  have hlen : machine.target.byteSize t = bytes.length := by
    rw [machine.target.byteSize_eq_exactSize hsize, ← length_image hty, himage, List.length_map]
  refine List.forall₂_iff_get.2 ⟨by rw [List.length_range, hlen], ?_⟩
  intro i hi hi'
  rw [List.length_range] at hi
  obtain ⟨b, hb, hread⟩ := byteAt_eq_image hty i hi
  have hget : some bytes[i] = b := by
    rw [himage, List.getElem?_map, List.getElem?_eq_getElem hi'] at hb
    exact Option.some.inj hb
  rw [List.get_eq_getElem, List.getElem_range, List.get_eq_getElem, hget]
  exact hread

/-! ## What is rebuilt -/

theorem length_of_ofBytes_eq_ok {t : Ty} {bytes : List UInt8} {v : Value}
    (h : machine.ofBytes t bytes = .ok v) : bytes.length = machine.target.byteSize t := by
  unfold ofBytes at h
  obtain ⟨⟨⟩, hcheck, -⟩ := Outcome.bind_eq_ok.1 h
  exact (checkBytes_eq_ok_iff.1 hcheck).2

/-- Where no byte of its type holds a single bit, a scalar that has the bytes of the number that
some bytes spell has those bytes. This is every kind of scalar but the truth value. -/
theorem map_scalarByte_eq {s : Scalar} {bytes : List UInt8}
    (hlen : bytes.length = machine.target.byteSize s.ty)
    (hplaces : machine.target.bitPlaces s.ty =
      List.replicate (machine.target.byteSize s.ty) false)
    (hbyte : ∀ i, machine.scalarByte s i = byteOfNat (natOfBytes bytes) i) :
    (List.range (machine.target.byteSize s.ty)).map (machine.scalarByte s) =
      keepBits (machine.target.bitPlaces s.ty) bytes := by
  rw [funext hbyte, hplaces, ← hlen, map_byteOfNat_natOfBytes, keepBits_replicate_false]

/-- A truth value that is rebuilt has the lowest bit of its byte. -/
theorem byteOfNat_mod_two (b : UInt8) : byteOfNat (b.toNat % 2) 0 = b &&& 1 := by
  apply UInt8.toNat_inj.1
  rw [toNat_byteOfNat, UInt8.toNat_and]
  have hand : b.toNat &&& 1 = b.toNat % 2 := Nat.and_one_is_mod _
  simp only [Nat.pow_zero, Nat.div_one, UInt8.toNat_one, hand]
  omega

theorem map_scalarByte_int {i : FixedInt} {bytes : List UInt8}
    (hlen : bytes.length = machine.target.byteSize (.int i.width.bits))
    (h : FixedInt.ofNat? i.width.bits (natOfBytes bytes) = some i) :
    (List.range (machine.target.byteSize (.int i.width.bits))).map (machine.scalarByte (.int i)) =
      keepBits (machine.target.bitPlaces (.int i.width.bits)) bytes := by
  obtain ⟨width, bits⟩ := i
  simp only [FixedInt.ofNat?, IntWidth.ofNat?_bits, Option.map_some, Option.some.injEq,
    FixedInt.mk.injEq, heq_eq_eq, true_and] at h
  have hsize : machine.target.byteSize (.int width.bits) = width.bytes := by
    simp only [Target.byteSize, IntWidth.ofNat?_bits, Option.map_some, Option.getD_some]
  have hnat : bits.toNat = natOfBytes bytes % 2 ^ width.bits := by rw [← h, BitVec.toNat_ofNat]
  by_cases hbit : width = .i1
  · subst hbit
    obtain ⟨b, rfl⟩ := List.length_eq_one_iff.1 (hlen.trans hsize)
    have hb : bits.toNat = b.toNat % 2 := by simpa [natOfBytes, IntWidth.bits] using hnat
    have hbyte : byteOfNat bits.toNat 0 = b &&& 1 := by rw [hb, byteOfNat_mod_two]
    change [byteOfNat bits.toNat 0] = [b &&& 1]
    rw [hbyte]
  · have hpow : 2 ^ width.bits = 256 ^ bytes.length := by
      rw [hlen, hsize]
      cases width <;> first | rfl | exact absurd rfl hbit
    have hplaces : machine.target.bitPlaces (.int width.bits) =
        List.replicate (machine.target.byteSize (.int width.bits)) false := by
      cases width <;> first | rfl | exact absurd rfl hbit
    apply map_scalarByte_eq hlen hplaces
    intro i
    rw [hpow, Nat.mod_eq_of_lt (natOfBytes_lt bytes)] at hnat
    exact congrArg (byteOfNat · i) hnat

/-- A scalar that is rebuilt has the bytes that it was rebuilt from, single bits cut down. Each kind
of scalar keeps the number that its bytes spell in a form of its own. -/
theorem map_scalarByte_of_ofBytes (hflat : machine.addresses = .flat)
    (hp : machine.target.pointerSize ≤ 8) {s : Scalar} {bytes : List UInt8}
    (h : machine.ofBytes s.ty bytes = .ok (.scalar s)) :
    (List.range (machine.target.byteSize s.ty)).map (machine.scalarByte s) =
      keepBits (machine.target.bitPlaces s.ty) bytes := by
  have hlen := length_of_ofBytes_eq_ok h
  have hlt := natOfBytes_lt bytes
  rw [hlen] at hlt
  unfold ofBytes at h
  obtain ⟨_, -, h⟩ := Outcome.bind_eq_ok.1 h
  cases s with
  | int i =>
    apply map_scalarByte_int hlen
    simp only [Scalar.ty] at h
    split at h
    · rename_i j hj
      cases h
      exact hj
    · cases h
  | address a =>
    simp only [Scalar.ty, hflat, AddressSpace.flat, Outcome.map_ok, Except.ok.injEq,
      Value.scalar.injEq, Scalar.address.injEq] at h
    subst h
    apply map_scalarByte_eq hlen rfl
    intro i
    have hpow : 256 ^ machine.target.pointerSize ≤ 256 ^ 8 := Nat.pow_le_pow_right (by decide) hp
    have hbits : natOfBytes bytes % 2 ^ 64 = natOfBytes bytes :=
      Nat.mod_eq_of_lt (Nat.lt_of_lt_of_le hlt hpow)
    simp only [scalarByte, hflat, AddressSpace.flat, BitVec.ofInt_natCast, BitVec.toNat_ofNat,
      hbits, byteOfInt_natCast]
  | iptr int =>
    cases h
    exact map_scalarByte_eq hlen rfl fun i => byteOfInt_natCast ..
  | float x =>
    cases h
    apply map_scalarByte_eq hlen rfl
    intro i
    have hx : (BitVec.ofNat 32 (natOfBytes bytes)).toNat = natOfBytes bytes :=
      Nat.mod_eq_of_lt hlt
    exact congrArg (byteOfNat · i) hx
  | double x =>
    cases h
    apply map_scalarByte_eq hlen rfl
    intro i
    have hx : (BitVec.ofNat 64 (natOfBytes bytes)).toNat = natOfBytes bytes :=
      Nat.mod_eq_of_lt hlt
    exact congrArg (byteOfNat · i) hx

theorem images_membersOfBytes {ts : List Ty}
    (hts : ∀ t ∈ ts, machine.target.byteSize t = machine.target.exactSize t ∧
      ∀ (bytes : List UInt8) v, machine.ofBytes t bytes = .ok v →
        machine.image v = (keepBits (machine.target.bitPlaces t) bytes).map some)
    {bytes : List UInt8} {vs : List Value} (h : machine.membersOfBytes ts bytes = .ok vs) :
    machine.images vs = (keepBits (ts.flatMap machine.target.bitPlaces) bytes).map some := by
  induction ts generalizing bytes vs with
  | nil =>
    change cutEnd bytes = .ok vs at h
    rw [cutEnd] at h
    split at h
    · cases h
      rfl
    · cases h
  | cons t ts ih =>
    obtain ⟨hsize, himage⟩ := hts t (List.mem_cons_self ..)
    simp only [membersOfBytes_cons, Outcome.bind_eq_ok, cut] at h
    obtain ⟨⟨chunk, rest⟩, hcut, v, hv, vs, hvs, h⟩ := h
    cases h
    split at hcut
    · cases hcut
    · rw [List.splitAt_eq] at hcut
      cases hcut
      -- the places of the first member are as many as the bytes that were cut off for it
      have hlen : (machine.target.bitPlaces t).length =
          (bytes.take (machine.target.byteSize t)).length := by
        rw [machine.target.length_bitPlaces, length_of_ofBytes_eq_ok hv, hsize]
      have hrest := ih (fun u hu => hts u (List.mem_cons_of_mem _ hu)) hvs
      rw [images_cons, himage _ _ hv, hrest, ← List.map_append, List.flatMap_cons, keepBits,
        ← List.zipWith_append hlen, List.take_append_drop]

/-- The image of what is rebuilt is the bytes that it was rebuilt from, single bits cut down. This
is the whole loss: any bytes are a value of any type of their number. -/
theorem image_ofBytes (hflat : machine.addresses = .flat) (hp : machine.target.pointerSize ≤ 8)
    {t : Ty} (hsize : machine.target.exactSize t ≤ maxSize) {bytes : List UInt8} {v : Value}
    (h : machine.ofBytes t bytes = .ok v) :
    machine.image v = (keepBits (machine.target.bitPlaces t) bytes).map some := by
  induction t using Ty.byMembers generalizing bytes v with
  | atom t ht =>
    rcases ofBytes_atom ht h with ⟨rfl, rfl⟩ | ⟨s, rfl, rfl⟩
    · rfl
    · rw [image_scalar, ← map_scalarByte_of_ofBytes hflat hp h, List.map_map]
      rfl
  | aggregate t kind hkind ih =>
    rw [ofBytes_aggregate hkind, Outcome.bind_eq_ok] at h
    obtain ⟨_, -, h⟩ := h
    obtain ⟨vs, hvs, rfl⟩ := Outcome.map_eq_ok.1 h
    rw [image_aggregate, machine.target.bitPlaces_aggregate hkind]
    refine images_membersOfBytes (fun m hm => ?_) hvs
    have hmsize := Nat.le_trans (machine.target.exactSize_le_of_mem hm) hsize
    exact ⟨machine.target.byteSize_eq_exactSize hmsize, fun _ _ hv => ih m hm hmsize hv⟩

/-- Single bits that are cut down already make the same value, so cutting them down once more, as
reading the value does, loses nothing else. -/
theorem ofBytes_keepBits (hflat : machine.addresses = .flat) (hp : machine.target.pointerSize ≤ 8)
    {t : Ty} (ht : t.Supported) (hsize : machine.target.exactSize t ≤ maxSize) {bytes : List UInt8}
    {v : Value} (h : machine.ofBytes t bytes = .ok v) :
    machine.ofBytes t (keepBits (machine.target.bitPlaces t) bytes) = .ok v := by
  have himage := image_ofBytes hflat hp hsize h
  have hbuild := ofBytes_image hflat hp (hasTy_ofBytes h) ht hsize (fits_ofBytes hflat hp h)
    (poisonFree_ofBytes h) himage
  rwa [withWildcards_ofBytes hflat h] at hbuild

/-! ## Both ways -/

/-- Values and bytes determine each other. A value of a type, without poison and with pointer-sized
scalars that fit, has a byte at every position of the type, and these make the value again up to the
provenance of its addresses. As many bytes as the type has make a value of the type without poison,
and at every position it has the byte that it was made from, except that a byte which holds a single
bit keeps only that bit. A size that is cut would leave the bytes behind it unread, hence the bound.
-/
theorem ofBytes_inverts_byteAt (hflat : machine.addresses = .flat)
    (hp : machine.target.pointerSize ≤ 8) {t : Ty} (ht : t.Supported)
    (hsize : machine.target.exactSize t ≤ maxSize) :
    (∀ d : Value, d.HasTy t → d.PoisonFree → d.ScalarsIn machine.target.Fits →
      ∃ bytes, List.Forall₂ (fun i b => machine.byteAt d t i = .ok (some b))
          (List.range (machine.target.byteSize t)) bytes ∧
        machine.ofBytes t bytes = .ok d.withWildcards) ∧
    ∀ bytes : List UInt8, bytes.length = machine.target.byteSize t →
      ∃ d, machine.ofBytes t bytes = .ok d ∧ d.HasTy t ∧ d.PoisonFree ∧
        List.Forall₂ (fun i b => machine.byteAt d t i = .ok (some b))
          (List.range (machine.target.byteSize t))
          (keepBits (machine.target.bitPlaces t) bytes) := by
  constructor
  · intro d hty hfree hfits
    obtain ⟨bytes, himage⟩ : ∃ bytes : List UInt8, machine.image d = bytes.map some :=
      exists_image_eq_map_some hfree.noPoisonBytes
    exact ⟨bytes, forall₂_byteAt_of_image hty hsize himage,
      ofBytes_image hflat hp hty ht hsize hfits hfree himage⟩
  · intro bytes hlen
    rw [machine.target.byteSize_eq_exactSize hsize] at hlen
    obtain ⟨d, hd⟩ := exists_ofBytes_eq_ok hflat ht hsize hlen
    have hty := hasTy_ofBytes hd
    exact ⟨d, hd, hty, poisonFree_ofBytes hd,
      forall₂_byteAt_of_image hty hsize (image_ofBytes hflat hp hsize hd)⟩

/-! ## A record with single bits -/

/-- A record of a truth value, an address, an array without elements, and a packed record of a NaN,
nothing, and two truth values. -/
def flaggedRecord : Value :=
  .aggregate (.record .struct)
    [.bit true, .address ⟨4096, .allocation 3⟩, .aggregate (.sequence .array) [],
      .aggregate (.record .packed) [.float 0x7FC00001, .void, .vector [.bit false, .bit true]]]

/-- The type of `flaggedRecord`. -/
def flaggedRecordTy : Ty :=
  .record .struct
    [.bit, .pointer, .array 0 (.int 64), .record .packed [.float .float, .void, .vector 2 .bit]]

/-- Both ways at once for a type with all that may be lost, a single bit and a provenance, and with
members that have no bytes. -/
theorem ofBytes_inverts_byteAt_flaggedRecord :
    flaggedRecordTy.Supported ∧ Target.standard.exactSize flaggedRecordTy = 15 ∧
      (∃ bytes, List.Forall₂
          (fun i b => (standard .standard).byteAt flaggedRecord flaggedRecordTy i = .ok (some b))
          (List.range 15) bytes ∧
        (standard .standard).ofBytes flaggedRecordTy bytes = .ok flaggedRecord.withWildcards) ∧
      ∃ d, (standard .standard).ofBytes flaggedRecordTy (List.replicate 15 0xFF) = .ok d ∧
        d.HasTy flaggedRecordTy ∧ d.PoisonFree ∧
        List.Forall₂ (fun i b => (standard .standard).byteAt d flaggedRecordTy i = .ok (some b))
          (List.range 15) (1 :: (List.replicate 12 0xFF ++ [1, 1])) := by
  have ht : flaggedRecordTy.Supported := by decide
  have hsize : Target.standard.exactSize flaggedRecordTy = 15 := by decide
  have hty : flaggedRecord.HasTy flaggedRecordTy :=
    .aggregate rfl (.cons (.scalar _) (.cons (.scalar _) (.cons (.aggregate rfl .nil)
      (.cons (.aggregate rfl (.cons (.scalar _) (.cons .void (.cons (.aggregate rfl
        (.cons (.scalar _) (.cons (.scalar _) .nil))) .nil)))) .nil))))
  have hfree : flaggedRecord.PoisonFree := by simp [flaggedRecord, Value.bit]
  have hfits : flaggedRecord.ScalarsIn Target.standard.Fits := by
    simp [flaggedRecord, Value.bit, Target.Fits, Target.pointerBits, Target.standard]
  have hflat : (standard .standard).addresses = .flat := rfl
  obtain ⟨hread, hbuild⟩ := ofBytes_inverts_byteAt hflat (by decide) ht (hsize ▸ by decide)
  exact ⟨ht, hsize, hread _ hty hfree hfits, hbuild _ rfl⟩

end Machine

end SymbolicBytes
