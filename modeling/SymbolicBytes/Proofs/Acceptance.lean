import SymbolicBytes.Proofs.Literals
import SymbolicBytes.Proofs.Reloading
import SymbolicBytes.Proofs.ValuelessTypes
/-!
# What can be stored

A value that is not made of loaded bytes is stored exactly if its type has values and the check of
shapes lets it through, with one exception: the result of a void computation is stored at every type
of no size, although the check lets it through at `void` alone (`Machine.storedAsChecked`). Inside
an aggregate there is no exception, since there the check is all that is asked.
-/

namespace SymbolicBytes

namespace SymValue

variable {v w : SymValue} {t m : Ty} {levels : Nat}

/-- What passes the check passes it part by part. So a part that would be refused makes the whole be
refused, wherever it is. -/
theorem exists_shapeWithin_part (h : v.shapeWithin levels t = .ok ()) {path : List Nat}
    (hv : v.partAt? path = some w) (ht : t.memberAt? path = some m) :
    ∃ levels', w.shapeWithin levels' m = .ok () := by
  induction path generalizing v t levels with
  | nil =>
    rw [partAt?] at hv
    obtain rfl := Option.some.inj hv
    obtain rfl := Option.some.inj ht
    exact ⟨levels, h⟩
  | cons index path ih =>
    cases v with
    | aggregate kind members =>
      cases levels with
      | zero => cases h
      | succ levels =>
        obtain ⟨-, hmembers⟩ := shapeBy_aggregate_eq_ok_iff.1 h
        obtain ⟨part, hpart, hv⟩ := Option.bind_eq_some_iff.1 hv
        obtain ⟨member, hmember, ht⟩ := Option.bind_eq_some_iff.1 ht
        rw [Ty.member?_eq_memberTys] at hmember
        exact ih (getElem?_of_forall₂ hmembers hpart hmember) hv ht
    | _ => cases hv

/-- The check lets the result of a void computation through at its own type alone. -/
theorem checkShape_void_eq_ok_iff : void.checkShape t = .ok () ↔ t = .void := by
  constructor
  · intro h
    cases (Literal.void.of_shapeWithin_eq_ok h).1
    rfl
  · rintro rfl
    rfl

end SymValue

namespace Machine

variable {machine : Machine} {v : SymValue} {t : Ty} {ids : StoreIds}

/-- Whether a value can be stored at a type with values: the check lets it through, or there is no
result and nothing to store. -/
def Storable (machine : Machine) (v : SymValue) (t : Ty) : Prop :=
  v.checkShape t = .ok () ∨ v = .void ∧ machine.target.byteSize t = 0

/-- Whether a value is refused as malformed. -/
abbrev RefusesMalformed (machine : Machine) (v : SymValue) (t : Ty) (ids : StoreIds) : Prop :=
  Outcome.FailsAs .structural (machine.encode v t ids).1

/-- At a type with values, storing goes as the check goes, except for the result of a void
computation. -/
theorem encode_of_ne_void (hplain : ∀ bytes u, v ≠ .concat bytes u)
    (hids : ids.next < StoreIds.last) (ht : t.Supported) (hvoid : v ≠ .void) :
    (v.checkShape t = .ok () ∧ ∃ out, (machine.encode v t ids).1 = .ok out) ∨
      (v.checkShape t ≠ .ok () ∧ machine.RefusesMalformed v t ids) := by
  have hcheck := (Ty.checkSupported_eq_ok_iff t).2 ht
  obtain ⟨id, rest, hfresh⟩ := StoreIds.exists_fresh_eq_ok hids
  unfold RefusesMalformed Outcome.FailsAs encode
  simp only [hcheck]
  split
  · exact absurd rfl hvoid
  · exact absurd rfl (hplain _ _)
  · -- the check has its own fault for a single byte
    exact .inr ⟨nofun, _, rfl, rfl⟩
  · split
    · rename_i fault hshape
      refine .inr ⟨?_, fault, rfl, SymValue.kind_of_shapeWithin_eq_error hshape⟩
      rw [hshape]
      exact nofun
    · rename_i hshape
      rw [hfresh]
      exact .inl ⟨hshape, _, rfl⟩

/-- The result of a void computation is stored where there is nothing to store. Only the size of the
type is looked at for it. -/
theorem encode_void (ht : t.Supported) :
    (machine.target.byteSize t = 0 ∧ ∃ out, (machine.encode .void t ids).1 = .ok out) ∨
      (machine.target.byteSize t ≠ 0 ∧ machine.RefusesMalformed .void t ids) := by
  have hcheck := (Ty.checkSupported_eq_ok_iff t).2 ht
  unfold RefusesMalformed Outcome.FailsAs encode
  simp only [hcheck]
  by_cases hsize : machine.target.byteSize t = 0
  · rw [if_pos hsize]
    exact .inl ⟨hsize, _, rfl⟩
  · rw [if_neg hsize]
    exact .inr ⟨hsize, _, rfl, rfl⟩

/-- A value that can be stored is stored, and any other is refused as malformed. -/
theorem encode_of_supported (hplain : ∀ bytes u, v ≠ .concat bytes u)
    (hids : ids.next < StoreIds.last) (ht : t.Supported) :
    (machine.Storable v t ∧ ∃ out, (machine.encode v t ids).1 = .ok out) ∨
      (¬ machine.Storable v t ∧ machine.RefusesMalformed v t ids) := by
  by_cases hvoid : v = .void
  · subst hvoid
    rcases machine.encode_void ht with ⟨hsize, hout⟩ | ⟨hsize, hrefused⟩
    · exact .inl ⟨.inr ⟨rfl, hsize⟩, hout⟩
    · refine .inr ⟨?_, hrefused⟩
      rintro (hshape | ⟨-, hzero⟩)
      · obtain rfl := SymValue.checkShape_void_eq_ok_iff.1 hshape
        exact hsize (by simp only [Target.byteSize])
      · exact hsize hzero
  · rcases encode_of_ne_void hplain hids ht hvoid with ⟨hshape, hout⟩ | ⟨hshape, hrefused⟩
    · exact .inl ⟨.inl hshape, hout⟩
    · refine .inr ⟨?_, hrefused⟩
      rintro (h | ⟨h, -⟩)
      · exact hshape h
      · exact hvoid h

/-- What holds of storing a value at a type, beside the check of shapes. -/
structure StoredAsChecked (machine : Machine) (v : SymValue) (t : Ty) (ids : StoreIds) : Prop where
  /-- a value is stored exactly if its type has values and the check lets it through, or there is no
  result and nothing to store -/
  accepted : (∃ out, (machine.encode v t ids).1 = .ok out) ↔ t.Supported ∧ machine.Storable v t
  /-- storing and the check differ about the result of a void computation at another type of no
  size, and about nothing else -/
  differ : ¬ ((∃ out, (machine.encode v t ids).1 = .ok out) ↔
      t.Supported ∧ v.checkShape t = .ok ()) ↔
    v = .void ∧ t ≠ .void ∧ t.Supported ∧ machine.target.byteSize t = 0
  /-- what is not stored at a type with values is refused as malformed -/
  refused : t.Supported → ¬ machine.Storable v t → machine.RefusesMalformed v t ids
  /-- at a type without values everything is refused for the type -/
  valueless : ¬ t.Supported → Outcome.FailsAs .unsupported (machine.encode v t ids).1
  /-- a literal of another type is refused as malformed, unless there is nothing to store -/
  literal : t.Supported → v.Literal → ¬ v.HasTy t → (v = .void → machine.target.byteSize t ≠ 0) →
    machine.RefusesMalformed v t ids
  /-- a value with a literal of another type inside is refused as malformed, whatever the literal -/
  inside : t.Supported → ∀ index path w m, v.partAt? (index :: path) = some w →
    t.memberAt? (index :: path) = some m → w.Literal → ¬ w.HasTy m →
    machine.RefusesMalformed v t ids

/-- As long as there is an id left, a value that is not made of loaded bytes is stored as the check
of shapes says, except for the result of a void computation. Inside another value that is refused
where it is stored alone. -/
theorem storedAsChecked (hplain : ∀ bytes u, v ≠ .concat bytes u)
    (hids : ids.next < StoreIds.last) : machine.StoredAsChecked v t ids := by
  have haccepted : (∃ out, (machine.encode v t ids).1 = .ok out) ↔
      t.Supported ∧ machine.Storable v t := by
    constructor
    · rintro ⟨out, hout⟩
      have ht : t.Supported := supported_of_encode (Prod.ext hout rfl)
      rcases encode_of_supported hplain hids ht with ⟨hstorable, -⟩ | ⟨-, fault, hfault, -⟩
      · exact ⟨ht, hstorable⟩
      · cases hout.symm.trans hfault
    · rintro ⟨ht, hstorable⟩
      rcases encode_of_supported hplain hids ht with ⟨-, hout⟩ | ⟨hnot, -⟩
      · exact hout
      · exact absurd hstorable hnot
  have hrefused : t.Supported → ¬ machine.Storable v t → machine.RefusesMalformed v t ids := by
    intro ht hnot
    rcases encode_of_supported hplain hids ht with ⟨hstorable, -⟩ | ⟨-, hrefused⟩
    · exact absurd hstorable hnot
    · exact hrefused
  refine
    { accepted := haccepted
      differ := ?_
      refused := hrefused
      valueless := fun ht => failsAs_encode (Ty.valueless_iff.2 ht) v ids
      literal := ?_
      inside := ?_ }
  · -- of all other values, being storable is passing the check
    rw [haccepted, Storable]
    by_cases hvoid : v = .void
    · subst hvoid
      rw [SymValue.checkShape_void_eq_ok_iff]
      by_cases ht : t = .void
      · simp [ht]
      · simp [ht]
    · simp [hvoid]
  · intro ht hliteral hty hsize
    refine hrefused ht ?_
    rintro (hshape | ⟨hvoid, hzero⟩)
    · exact hty (hliteral.of_shapeWithin_eq_ok hshape).1
    · exact hsize hvoid hzero
  · intro ht index path w m hw hm hliteral hty
    refine hrefused ht ?_
    rintro (hshape | ⟨rfl, -⟩)
    · obtain ⟨levels, hpart⟩ := SymValue.exists_shapeWithin_part hshape hw hm
      exact hty (hliteral.of_shapeWithin_eq_ok hpart).1
    · -- the result of a void computation has no parts
      cases hw

/-- A number beside a struct with the result of a void computation in it. -/
def voidInside : SymValue :=
  .aggregate (.record .struct)
    [.scalar (.int ⟨.i8, 200⟩), .aggregate (.record .packed) [.void, .undef .pointer]]

/-- The type of a number beside a struct with an empty array in it. -/
def emptyInside : Ty := .record .struct [.int 8, .record .packed [.array 0 (.int 32), .pointer]]

/-- The result of a void computation is refused at an array without elements if it is inside a
record. -/
theorem storedAsChecked_voidInside :
    (∀ bytes u, voidInside ≠ .concat bytes u) ∧ StoreIds.all.next < StoreIds.last ∧
      (standard .standard).StoredAsChecked voidInside emptyInside .all ∧
      (standard .standard).RefusesMalformed voidInside emptyInside .all := by
  have hplain : ∀ bytes u, voidInside ≠ .concat bytes u := nofun
  have hids : StoreIds.all.next < StoreIds.last := by decide
  have hstored : (standard .standard).StoredAsChecked voidInside emptyInside .all :=
    storedAsChecked hplain hids
  refine ⟨hplain, hids, hstored, hstored.inside (by decide) 1 [0] .void _ rfl rfl .void ?_⟩
  exact nofun

/-- The result of a void computation is stored at an array without elements, which the check refuses
it at and which it is refused at inside a struct. -/
theorem encode_void_emptyArray :
    let machine := standard .standard
    let t : Ty := .array 0 (.int 32)
    t.Supported ∧ SymValue.void.Literal ∧ ¬ SymValue.void.HasTy t ∧
      SymValue.void.checkShape t = .error (.shapeMismatch "none" "none" t) ∧
      machine.encode .void t .all = (.ok [], .all) ∧
      machine.encode (.aggregate (.record .struct) [.void]) (.record .struct [t]) .all =
        (.error (.shapeMismatch "none" "none" t), .all) :=
  ⟨by decide, .void, nofun, rfl, rfl, rfl⟩

end Machine

end SymbolicBytes
