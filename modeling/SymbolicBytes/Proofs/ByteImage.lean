import SymbolicBytes.Machine
import SymbolicBytes.Proofs.Values
/-!
# Byte images

`Machine.image` lays a whole value out as a list of bytes, members end to end, with `none` for the
bytes of poison. It is the reference that reading single bytes is measured against: at every
position below the size of its type, `byteAt` reads the image of the value (`byteAt_eq_image`). The
image itself is as long as the type is large (`length_image`).

Sizes saturate and images do not, so reading agrees with the image only below the saturated size.
The members before a position that is read have exact sizes, which is what carries the induction.
-/

namespace SymbolicBytes.Machine

variable (machine : Machine)

mutual

/-- All bytes of a value, least significant first; `none` for the bytes of poison. -/
def image : Value → List (Option UInt8)
  | .scalar s =>
    (List.range (machine.target.byteSize s.ty)).map fun i => some (machine.scalarByte s i)
  | .aggregate _ members => images members
  | .void => []
  | .poison ty => List.replicate (machine.target.exactSize ty) none

/-- The bytes of the listed values, end to end. -/
def images : List Value → List (Option UInt8)
  | [] => []
  | v :: vs => image v ++ images vs

end

variable {machine}

@[simp] theorem image_scalar (s : Scalar) :
    machine.image (.scalar s) =
      (List.range (machine.target.byteSize s.ty)).map fun i => some (machine.scalarByte s i) := rfl

@[simp] theorem image_void : machine.image .void = [] := rfl

@[simp] theorem image_poison (ty : Ty) :
    machine.image (.poison ty) = List.replicate (machine.target.exactSize ty) none := rfl

theorem image_aggregate (kind : AggregateKind) (members : List Value) :
    machine.image (.aggregate kind members) = machine.images members := rfl

@[simp] theorem images_nil : machine.images [] = [] := rfl

@[simp] theorem images_cons (v : Value) (vs : List Value) :
    machine.images (v :: vs) = machine.image v ++ machine.images vs := rfl

theorem length_images {vs : List Value} {ts : List Ty}
    (h : List.Forall₂ (fun v t => (machine.image v).length = machine.target.exactSize t) vs ts) :
    (machine.images vs).length = (ts.map machine.target.exactSize).sum := by
  induction h with
  | nil => simp
  | cons hv _ ih => simp [hv, ih]

/-- The image of a value has as many bytes as its type, counted exactly. Poison is laid out as well,
so this needs no assumption on what is inside. -/
theorem length_image {v : Value} {t : Ty} (h : v.HasTy t) :
    (machine.image v).length = machine.target.exactSize t := by
  induction v using Value.byMembers generalizing t with
  | scalar s =>
    rw [h.scalar_eq]
    cases s <;> simp [Scalar.ty, Target.byteSize, Target.exactSize]
  | void =>
    cases h
    simp [Target.exactSize]
  | poison ty => simp [h.poison_eq]
  | aggregate kind members ih =>
    obtain ⟨hkind, hmembers⟩ := h.members
    rw [image_aggregate, machine.target.exactSize_eq_sum hkind]
    exact length_images (forall₂_of_mem hmembers fun v hv t _ ht => ih v hv ht)

theorem images_eq_flatMap (vs : List Value) : machine.images vs = vs.flatMap machine.image := by
  induction vs with
  | nil => simp
  | cons v vs ih => simp [ih]

/-- Flat addresses have the same bytes, wherever they came from. So what is built from bytes can
agree with what was stored at most up to provenance. -/
theorem image_withWildcards (hflat : machine.addresses = .flat) (v : Value) :
    machine.image v.withWildcards = machine.image v := by
  induction v using Value.byMembers with
  | scalar s =>
    cases s with
    | address a => simp only [Value.withWildcards, image_scalar, scalarByte, hflat]; rfl
    | _ => rfl
  | void => rfl
  | poison ty => rfl
  | aggregate kind members ih =>
    rw [Value.withWildcards, Value.withWildcardsAll_eq_map, image_aggregate, image_aggregate,
      images_eq_flatMap, images_eq_flatMap, List.flatMap_map]
    exact List.flatMap_congr ih

/-- The image has a poison byte exactly if there is poison of a type with bytes. Poison of an empty
type leaves no trace in it. -/
theorem none_mem_image_iff {v : Value} :
    none ∈ machine.image v ↔ ¬ machine.target.NoPoisonBytes v := by
  induction v using Value.byMembers with
  | scalar s => simp
  | void => simp
  | poison ty => simp [List.mem_replicate, Target.byteSize_eq_zero_iff]
  | aggregate kind members ih =>
    simp only [image_aggregate, images_eq_flatMap, List.mem_flatMap, Target.noPoisonBytes_aggregate]
    constructor
    · rintro ⟨v, hv, hnone⟩ hall
      exact (ih v hv).1 hnone (hall v hv)
    · intro hnot
      by_contra hnone
      apply hnot
      intro v hv
      by_contra hpoison
      exact hnone ⟨v, hv, (ih v hv).2 hpoison⟩

/-- Without poison of types with bytes, the image is a list of bytes. -/
theorem exists_image_eq_map_some {v : Value} (h : machine.target.NoPoisonBytes v) :
    ∃ bytes : List UInt8, machine.image v = bytes.map some :=
  exists_eq_map_some fun hnone => none_mem_image_iff.1 hnone h

/-- Reading an aggregate at a type that it has passes the check of its members. -/
theorem checkMembers_eq_ok {kind : AggregateKind} {members : List Value} {t : Ty}
    (h : (Value.aggregate kind members).HasTy t) :
    checkMembers (.aggregate kind members) members.length t = .ok () := by
  obtain ⟨hkind, hmembers⟩ := h.members
  simp [checkMembers, Value.aggregateKind?, hkind, Ty.memberCount?_eq_length hkind,
    hmembers.length_eq]

/-- What reading one byte of a value of a type gives, below the size of the type. -/
def Reads (machine : Machine) (v : Value) (t : Ty) : Prop :=
  ∀ i < machine.target.byteSize t,
    ∃ b, (machine.image v)[i]? = some b ∧ machine.byteAt v t i = .ok b

/-- Reading among the members from some position on reads the images of those members. The members
left and the offset into them go down together; that the members before were skipped by their
saturated sizes does no harm, since the offset lies behind all of them. -/
theorem byteAmong_eq_images {ty : Ty} {vs : List Value} {ts : List Ty}
    (h : List.Forall₂ (fun v t => v.HasTy t ∧ machine.Reads v t) vs ts) (index : Nat)
    {position offset : Nat} (hts : ty.memberTys.drop position = ts)
    (hoffset : offset < machine.target.byteSizes ts) :
    ∃ b, (machine.images vs)[offset]? = some b ∧
      machine.byteAmong vs ty position index offset = .ok b := by
  induction h generalizing position offset with
  | nil => simp [Target.byteSizes] at hoffset
  | @cons v t vs ts hv hvs ih =>
    obtain ⟨hty, hread⟩ := hv
    obtain ⟨hmember, hrest⟩ := Ty.member?_of_drop hts
    simp only [byteAmong, hmember, images_cons]
    split
    · -- the byte is one of the first member
      rename_i hlt
      obtain ⟨b, himage, hbyte⟩ := hread offset hlt
      refine ⟨b, ?_, hbyte⟩
      rw [List.getElem?_append_left (List.getElem?_eq_some_iff.1 himage).1]
      exact himage
    · rename_i hge
      -- the first member is passed over, so its size is below the largest one and exact
      have hsum : machine.target.byteSizes (t :: ts) ≤
          machine.target.byteSize t + machine.target.byteSizes ts := by
        simp only [Target.byteSizes]
        exact Nat.min_le_left ..
      have hmax := machine.target.byteSizes_le (t :: ts)
      have hexact : machine.target.byteSize t = (machine.image v).length := by
        rw [length_image hty]
        exact machine.target.byteSize_eq_exactSize
          (machine.target.exactSize_le_of_byteSize_lt (by omega))
      have hoffset' : offset - machine.target.byteSize t < machine.target.byteSizes ts := by omega
      obtain ⟨b, himage, hbyte⟩ := ih hrest hoffset'
      refine ⟨b, ?_, hbyte⟩
      rw [List.getElem?_append_right (by omega), ← hexact]
      exact himage

/-- Below the size of the type, reading a byte of a value of it reads the image of the value. At or
beyond the size, which may be cut at the largest one, nothing is said. -/
theorem byteAt_eq_image {v : Value} {t : Ty} (h : v.HasTy t) : machine.Reads v t := by
  induction v using Value.byMembers generalizing t with
  | scalar s =>
    intro i hi
    rw [h.scalar_eq] at hi ⊢
    refine ⟨some (machine.scalarByte s i), ?_, ?_⟩
    · simp [hi]
    · simp [byteAt]
  | void =>
    cases h
    intro i hi
    simp [Target.byteSize] at hi
  | poison ty =>
    intro i hi
    have hlt := Nat.lt_of_lt_of_le hi (machine.target.byteSize_le_exactSize t)
    rw [h.poison_eq] at hlt
    refine ⟨none, ?_, ?_⟩
    · simp [hlt]
    · simp [byteAt]
  | aggregate kind members ih =>
    intro i hi
    obtain ⟨hkind, hmembers⟩ := h.members
    rw [machine.target.byteSize_eq_byteSizes hkind] at hi
    obtain ⟨b, himage, hbyte⟩ := byteAmong_eq_images
      (forall₂_of_mem hmembers fun v hv t _ ht => ⟨ht, ih v hv ht⟩) i (List.drop_zero ..) hi
    refine ⟨b, by rw [image_aggregate, himage], ?_⟩
    rw [byteAt, checkMembers_eq_ok h]
    exact hbyte

end SymbolicBytes.Machine
