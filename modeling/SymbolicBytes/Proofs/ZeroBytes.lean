import SymbolicBytes.Proofs.BytePositions
import SymbolicBytes.Proofs.Resolution
import SymbolicBytes.Proofs.ValuelessTypes
/-!
# Bytes of zero values

The zero value of a type is the value that zero bytes spell. With flat addresses it exists exactly
at the types with values, has no poison, reads as zero at every byte and is rebuilt from zero bytes,
except that the null address comes back with the provenance of integers (`Machine.zeroThroughout`).

So an undefined value that was stored may be loaded in pieces: whichever of its bytes are put
together, in whatever order and from whatever stores, they are the zero value of the type that they
are read at (`Machine.valueOfBytes_of_undefBytes`), as long as pointers can count the bytes.
-/

namespace SymbolicBytes

/-- Whether all bits of a scalar are zero. -/
def Scalar.IsZero : Scalar → Prop
  | .address a => a.bits = 0
  | .int i => i.bits = 0
  | .iptr n => n = 0
  | .float x => x = 0
  | .double x => x = 0

theorem AddressSpace.isZero_of_zeroValue {s : Scalar} (h : flat.zeroValue s.ty = .ok (.scalar s)) :
    s.IsZero := by
  unfold Scalar.ty zeroValue at h
  cases s with
  | int i =>
    obtain ⟨width, bits⟩ := i
    simp only [FixedInt.zero?, FixedInt.ofNat?, IntWidth.ofNat?_bits, Option.map_some] at h
    cases h
    exact rfl
  | _ =>
    cases h
    exact rfl

theorem natOfBytes_replicate_zero (count : Nat) : natOfBytes (List.replicate count 0) = 0 := by
  induction count with
  | zero => rfl
  | succ count ih =>
    rw [List.replicate_succ, natOfBytes, ih]
    rfl

namespace Machine

variable {machine : Machine} {t : Ty} {d : Value}

/-! ## Images of zero values -/

theorem scalarByte_of_isZero (hflat : machine.addresses = .flat) {s : Scalar} (hs : s.IsZero)
    (index : Nat) : machine.scalarByte s index = 0 := by
  have hnat : byteOfNat 0 index = 0 := by simp [byteOfNat]
  have hint : byteOfInt 0 index = 0 := (byteOfInt_natCast 0 index).trans hnat
  cases s with
  | address a =>
    obtain ⟨bits, provenance⟩ := a
    obtain rfl : bits = 0 := hs
    rw [scalarByte, hflat]
    exact hint
  | int i =>
    obtain ⟨width, bits⟩ := i
    obtain rfl : bits = 0 := hs
    simpa [scalarByte, FixedInt.toNat] using hnat
  | iptr n =>
    obtain rfl : n = 0 := hs
    exact hint
  | float x | double x =>
    obtain rfl : x = 0 := hs
    exact hnat

/-- A value of zeros has zero bytes and no others, whatever its type cuts them into. -/
theorem eq_some_zero_of_mem_image (hflat : machine.addresses = .flat) (hfree : d.PoisonFree)
    (hzero : d.ScalarsIn Scalar.IsZero) {x : Option UInt8} (hx : x ∈ machine.image d) :
    x = some 0 := by
  induction d using Value.byMembers with
  | scalar s =>
    obtain ⟨i, -, rfl⟩ := List.mem_map.1 hx
    rw [scalarByte_of_isZero hflat (Value.scalarsIn_scalar.1 hzero)]
  | void => cases hx
  | poison ty => exact absurd hfree (Value.not_poisonFree_poison ty)
  | aggregate kind members ih =>
    rw [Value.scalarsIn_aggregate] at hzero
    rw [Value.poisonFree_aggregate] at hfree
    rw [image_aggregate, images_eq_flatMap] at hx
    obtain ⟨m, hm, hx⟩ := List.mem_flatMap.1 hx
    exact ih m hm (hfree m hm) (hzero m hm) hx

theorem rebuilds_of_isZero (hflat : machine.addresses = .flat) {s : Scalar} (hs : s.IsZero) :
    machine.Rebuilds s := by
  have hbytes : (List.range (machine.target.byteSize s.ty)).map (machine.scalarByte s) =
      List.replicate (machine.target.byteSize s.ty) 0 := by
    rw [List.map_congr_left fun i _ => scalarByte_of_isZero hflat hs i, List.map_const',
      List.length_range]
  have hcheck : machine.checkBytes s.ty
      (List.replicate (machine.target.byteSize s.ty) (0 : UInt8)).length = .ok () :=
    checkBytes_eq_ok_iff.2 ⟨s.supported_ty, List.length_replicate⟩
  rw [Rebuilds, hbytes]
  unfold ofBytes
  rw [hcheck]
  cases s with
  | address a =>
    obtain ⟨bits, provenance⟩ := a
    obtain rfl : bits = 0 := hs
    simp only [Scalar.ty, Outcome.ok_bind, natOfBytes_replicate_zero, hflat]
    rfl
  | int i =>
    obtain ⟨width, bits⟩ := i
    obtain rfl : bits = 0 := hs
    simp only [Scalar.ty, Outcome.ok_bind, natOfBytes_replicate_zero, FixedInt.ofNat?,
      IntWidth.ofNat?_bits, Option.map_some]
    rfl
  | iptr n =>
    obtain rfl : n = 0 := hs
    simp only [Scalar.ty, Outcome.ok_bind, natOfBytes_replicate_zero]
    rfl
  | float x | double x =>
    obtain rfl : x = 0 := hs
    simp only [Scalar.ty, Outcome.ok_bind, natOfBytes_replicate_zero]
    rfl

/-! ## Zero values -/

section Zero

variable (hflat : machine.addresses = .flat) (hsize : machine.target.exactSize t ≤ maxSize)
  (hd : machine.addresses.zeroValue t = .ok d)

include hflat hd

theorem isZero_zeroValue : d.ScalarsIn Scalar.IsZero := by
  rw [hflat] at hd
  exact AddressSpace.scalarsIn_zeroValue (fun s hs => AddressSpace.isZero_of_zeroValue hs) hd

include hsize

/-- The zero value has as many zero bytes as its type has. -/
theorem image_zeroValue :
    machine.image d = List.replicate (machine.target.byteSize t) (some 0) := by
  rw [List.eq_replicate_iff, length_image (AddressSpace.hasTy_zeroValue hd),
    machine.target.byteSize_eq_exactSize hsize]
  refine ⟨rfl, fun x hx => ?_⟩
  exact eq_some_zero_of_mem_image hflat (AddressSpace.poisonFree_zeroValue hd)
    (isZero_zeroValue hflat hd) hx

theorem byteAt_zeroValue {i : Nat} (hi : i < machine.target.byteSize t) :
    machine.byteAt d t i = .ok (some 0) := by
  obtain ⟨x, himage, hbyte⟩ := byteAt_eq_image (AddressSpace.hasTy_zeroValue hd) i hi
  rw [image_zeroValue hflat hsize hd] at himage
  obtain ⟨hlt, hx⟩ := List.getElem?_eq_some_iff.1 himage
  rw [List.getElem_replicate] at hx
  rw [hbyte, ← hx]

/-- Zero bytes are the zero value, up to the provenance of null addresses. -/
theorem ofBytes_zeros :
    machine.ofBytes t (List.replicate (machine.target.byteSize t) 0) = .ok d.withWildcards := by
  refine ofBytes_image_of_rebuilds (AddressSpace.hasTy_zeroValue hd)
    (AddressSpace.supported_of_zeroValue hd) hsize
    (fun s hs => rebuilds_of_isZero hflat (isZero_zeroValue hflat hd s hs))
    (AddressSpace.poisonFree_zeroValue hd) ?_
  rw [image_zeroValue hflat hsize hd, List.map_replicate]

end Zero

/-! ## Bytes of undefined values -/

/-- Whether a byte is taken from an undefined value of a type, at a position that is written out. -/
structure UndefByte (machine : Machine) (t : Ty) (b : SymByte) : Prop where
  /-- the parent is undefined -/
  parent_eq : b.parent = .undef t
  /-- it was stored at its type -/
  ty_eq : b.ty = t
  /-- the position is within the type -/
  index : ∃ i < machine.target.byteSize t, b.literalIndex? = some i

theorem undefByte_encode {ids ids' : StoreIds} {out : List SymByte}
    (h : machine.encode (.undef t) t ids = (.ok out, ids')) {b : SymByte} (hb : b ∈ out) :
    machine.UndefByte t b := by
  have hplain : ∀ bytes u, SymValue.undef t ≠ .concat bytes u := nofun
  obtain ⟨rfl, -⟩ := encode_eq_ok_of_plain hplain h
  obtain ⟨i, hi⟩ := List.getElem?_of_mem (Target.mem_arrange.1 hb)
  obtain ⟨hlt, hrun⟩ := getElem?_run hi
  exact ⟨by rw [hrun], by rw [hrun], i, hlt, literalIndex?_run hi⟩

section Loads

variable (hflat : machine.addresses = .flat) (hsize : machine.target.exactSize t ≤ maxSize)
  (ht : t.Supported) (hcount : machine.target.byteSize t ≤ 2 ^ machine.target.pointerBits)

include hflat hsize ht hcount

/-- A byte of an undefined value is zero, at whatever position and in whatever company. -/
theorem UndefByte.resolveAlone {b : SymByte} (hb : machine.UndefByte t b) (levels : Nat) :
    machine.resolveAlone (machine.concretizeWithin (levels + 1)) b = .ok (some 0) := by
  obtain ⟨d, hd⟩ : ∃ d, machine.addresses.zeroValue t = .ok d := by
    rw [hflat]
    exact AddressSpace.exists_zeroValue_eq_ok t ht
  obtain ⟨i, hi, hindex⟩ := hb.index
  have hparent : machine.concretizeWithin (levels + 1) b.parent = .ok d := by
    rw [hb.parent_eq]
    exact hd
  rw [Machine.resolveAlone, hparent, Outcome.ok_bind,
    (AddressSpace.poisonFree_zeroValue hd).isPoison_eq_false, if_neg Bool.false_ne_true,
    resolveByte, indexBy_of_literalIndex? hindex (Nat.lt_of_lt_of_le hi hcount), Outcome.ok_bind,
    hb.ty_eq]
  exact byteAt_zeroValue hflat hsize hd hi

variable {loaded : List SymByte} {u : Ty} {e : Value}
  (hloaded : ∀ b ∈ loaded, machine.UndefByte t b) (hlen : loaded.length = machine.target.byteSize u)
  (husize : machine.target.exactSize u ≤ maxSize) (he : machine.addresses.zeroValue u = .ok e)

include hloaded hlen husize he

/-- Bytes of undefined values of a type spell the zero value of the type that they are read at. They
may repeat, be out of order or come from several stores, since no two of them differ. -/
theorem valueOfBytes_of_undefBytes {depth : Nat} (hdepth : depth ≤ depthLimit) :
    machine.valueOfBytes loaded u depth = .ok e.withWildcards := by
  have hlevels : levelsBelow depth = depthLimit - depth + 1 := by
    rw [levelsBelow]
    omega
  obtain ⟨resolved, values, hresolved, hvalues, hzeros⟩ :=
    exists_assemble_of_resolveAlone fun b hb =>
      ⟨0, (hloaded b hb).resolveAlone hflat hsize ht hcount (depthLimit - depth)⟩
  -- whatever is read of the bytes is zero
  have hvalues_eq : values = List.replicate (machine.target.byteSize u) 0 := by
    rw [List.eq_replicate_iff, ← hlen]
    refine ⟨hzeros.length_eq.symm, ?_⟩
    intro x hx
    obtain ⟨b, hb, hread⟩ := exists_mem_of_forall₂ hzeros.flip hx
    have hzero := (hloaded b hb).resolveAlone hflat hsize ht hcount (depthLimit - depth)
    exact Option.some.inj (Except.ok.inj (hread.symm.trans hzero))
  rw [valueOfBytes, hlevels, valueOfBytesBy_eq hlen, hresolved]
  · simp only [Outcome.ok_bind, hvalues, hvalues_eq]
    exact ofBytes_zeros hflat husize he
  · intro a ha b hb _
    rw [(hloaded a ha).parent_eq, (hloaded b hb).parent_eq]

/-- A load of bytes of undefined values is decided as the zero value of the type of the load, up to
provenance. -/
theorem exists_concretize_decode_of_undefBytes :
    ∃ e', machine.decode loaded u >>= machine.concretize = .ok e' ∧
      e'.withWildcards = e.withWildcards := by
  have hu : u.Supported := AddressSpace.supported_of_zeroValue he
  have harranged : ∀ b ∈ machine.target.arrange loaded, machine.UndefByte t b := fun b hb =>
    hloaded b (Target.mem_arrange.1 hb)
  have hwildcards : e.withWildcards.withWildcards = e.withWildcards :=
    withWildcards_ofBytes hflat (ofBytes_zeros hflat husize he)
  by_cases hvoid : u = .void
  · subst hvoid
    obtain rfl : loaded = [] := by
      apply List.eq_nil_of_length_eq_zero
      rw [hlen, Target.byteSize]
    cases he
    exact ⟨.void, rfl, rfl⟩
  · cases hintact : machine.intactParent? (machine.target.arrange loaded) u with
    | some parent =>
      -- a whole store of an undefined value of the type
      obtain ⟨first, rest, hcons, rfl, -, hall⟩ := of_intactParent?_eq_some hintact
      have hfirst : first ∈ machine.target.arrange loaded := hcons ▸ List.mem_cons_self ..
      have hty : first.ty = u := (hall first 0 (by rw [hcons]; rfl)).2.1
      obtain rfl : t = u := (harranged first hfirst).ty_eq.symm.trans hty
      rw [decode_eq_of_intactParent? hu hvoid hintact, Outcome.ok_bind,
        (harranged first hfirst).parent_eq]
      exact ⟨e, he, rfl⟩
    | none =>
      rw [decode_eq_concat hu hvoid hintact, Outcome.ok_bind, concretize_concat hu hintact]
      refine ⟨e.withWildcards, ?_, hwildcards⟩
      exact valueOfBytes_of_undefBytes hflat hsize ht hcount harranged
        (by rwa [Target.length_arrange]) husize he (show 1 ≤ depthLimit by decide)

end Loads

/-- What holds of the zero value of a type. -/
structure ZeroThroughout (machine : Machine) (t : Ty) (d : Value) : Prop where
  /-- it has the type -/
  hasTy : d.HasTy t
  /-- there is no poison in it -/
  poisonFree : d.PoisonFree
  /-- all scalars in it are zero -/
  isZero : d.ScalarsIn Scalar.IsZero
  /-- all its bytes are zero -/
  byteAt : ∀ i < machine.target.byteSize t, machine.byteAt d t i = .ok (some 0)
  /-- it is rebuilt from zero bytes, up to the provenance of its addresses -/
  ofBytes : machine.ofBytes t (List.replicate (machine.target.byteSize t) 0) = .ok d.withWildcards
  /-- it is what an undefined value is decided as -/
  undef : machine.concretize (.undef t) = .ok d
  /-- an undefined value that was stored is decided byte by byte as the same value, up to
  provenance, if pointers can count its bytes -/
  whole : machine.target.byteSize t ≤ 2 ^ machine.target.pointerBits →
    ∀ ids ids' out, machine.encode (.undef t) t ids = (.ok out, ids') →
    ∀ depth ≤ depthLimit,
      machine.valueOfBytes (machine.target.arrange out) t depth = .ok d.withWildcards
  /-- any bytes of undefined values that were stored are loaded as the zero value of the type of the
  load, up to provenance -/
  pieces : machine.target.byteSize t ≤ 2 ^ machine.target.pointerBits →
    ∀ loaded, (∀ b ∈ loaded, ∃ ids ids' out,
      machine.encode (.undef t) t ids = (.ok out, ids') ∧ b ∈ out) →
    ∀ u e, loaded.length = machine.target.byteSize u → machine.target.exactSize u ≤ maxSize →
      machine.addresses.zeroValue u = .ok e →
      ∃ e', machine.decode loaded u >>= machine.concretize = .ok e' ∧
        e'.withWildcards = e.withWildcards

/-- With flat addresses, exactly the types with values have a zero value, and it is zero throughout
if the size of the type is exact: as a value, in its bytes, built from bytes, and as what an
undefined value is decided as, whole or in pieces. -/
theorem zeroThroughout (hflat : machine.addresses = .flat)
    (hsize : machine.target.exactSize t ≤ maxSize) :
    ((∃ d, machine.addresses.zeroValue t = .ok d) ↔ t.Supported) ∧
      ∀ d, machine.addresses.zeroValue t = .ok d → machine.ZeroThroughout t d := by
  constructor
  · constructor
    · rintro ⟨d, hd⟩
      exact AddressSpace.supported_of_zeroValue hd
    · intro ht
      rw [hflat]
      exact AddressSpace.exists_zeroValue_eq_ok t ht
  · intro d hd
    have ht : t.Supported := AddressSpace.supported_of_zeroValue hd
    refine
      { hasTy := AddressSpace.hasTy_zeroValue hd
        poisonFree := AddressSpace.poisonFree_zeroValue hd
        isZero := isZero_zeroValue hflat hd
        byteAt := fun i hi => byteAt_zeroValue hflat hsize hd hi
        ofBytes := ofBytes_zeros hflat hsize hd
        undef := hd
        whole := ?_
        pieces := ?_ }
    · intro hcount ids ids' out hout depth hdepth
      refine valueOfBytes_of_undefBytes hflat hsize ht hcount ?_ ?_ hsize hd hdepth
      · exact fun b hb => undefByte_encode hout (Target.mem_arrange.1 hb)
      · rw [Target.length_arrange]
        exact length_encode hout
    · intro hcount loaded hloaded u e hlen husize he
      refine exists_concretize_decode_of_undefBytes hflat hsize ht hcount ?_ hlen husize he
      intro b hb
      obtain ⟨ids, ids', out, hout, hmem⟩ := hloaded b hb
      exact undefByte_encode hout hmem

/-- Pointers, bits, an empty array and a part without bytes. -/
def mixedParts : Ty :=
  .record .packed [.pointer, .vector 2 .bit, .array 0 (.float .double), .void, .array 2 .iptr]

/-- The null address comes back from zero bytes with another provenance. -/
theorem zeroThroughout_mixedParts :
    let machine := standard .standard
    machine.addresses = .flat ∧ machine.target.exactSize mixedParts ≤ maxSize ∧
      ∃ d, machine.addresses.zeroValue mixedParts = .ok d ∧
        machine.ZeroThroughout mixedParts d ∧ d.withWildcards ≠ d := by
  intro machine
  have hsize : machine.target.exactSize mixedParts ≤ maxSize := by decide
  have hzero : ((∃ d, machine.addresses.zeroValue mixedParts = .ok d) ↔ mixedParts.Supported) ∧
      ∀ d, machine.addresses.zeroValue mixedParts = .ok d → machine.ZeroThroughout mixedParts d :=
    zeroThroughout rfl hsize
  obtain ⟨d, hd⟩ := hzero.1.2 (by decide)
  refine ⟨rfl, hsize, d, hd, hzero.2 d hd, ?_⟩
  cases hd
  exact nofun

end Machine

end SymbolicBytes
