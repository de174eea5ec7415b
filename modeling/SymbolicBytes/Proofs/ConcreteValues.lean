import SymbolicBytes.Proofs.ScalarInvariants
import SymbolicBytes.Proofs.Shapes
import SymbolicBytes.Proofs.Tagging
/-!
# Deciding and storing concrete values

A concrete value that is written out as a symbolic one is decided as itself, and can be stored at
its type, as long as it is not nested deeper than a walk goes. `Value.height` says how deep it is:
it takes one level more than the height to decide a value (`concretizeWithin_toSym`) or to check its
shape (`shapeWithin_toSym`), and with fewer levels the walk gives up
(`concretizeWithin_toSym_of_height_le`).

So what was decided is decided as itself, if it is not too deep (`concretize_toSym_of_concretize`).
-/

namespace SymbolicBytes

namespace Value

theorem toSyms_eq_map (vs : List Value) : toSyms vs = vs.map toSym := by
  induction vs with
  | nil => rfl
  | cons v vs ih => rw [toSyms, ih, List.map_cons]

/-- What is written out is never made of loaded bytes, so storing it makes a store of its own. -/
theorem toSym_ne_concat (v : Value) (bytes : List SymByte) (ty : Ty) :
    v.toSym ≠ .concat bytes ty := by
  cases v <;> rintro ⟨⟩

/-- How many aggregates lie inside one another above the innermost part of the value. There are no
expressions in it, so none escape the count. -/
def height (v : Value) : Nat := v.toSym.nesting

/-- There is a level below an aggregate for each of its members. -/
theorem height_aggregate_lt_iff {kind : AggregateKind} {members : List Value} {levels : Nat} :
    (aggregate kind members).height < levels + 1 ↔ ∀ m ∈ members, m.height < levels := by
  rw [height, toSym, SymValue.nesting_aggregate_lt_iff, toSyms_eq_map, List.forall_mem_map]
  rfl

end Value

namespace Machine

variable {machine : Machine} {v : Value} {t : Ty} {levels : Nat}

/-- A concrete value is decided as itself, if its pointer-sized integers are in range and there are
enough levels. Out of range they would be cut, and the value would not be the same. -/
theorem concretizeWithin_toSym (hv : v.ScalarsIn machine.target.Canonical)
    (hlevels : v.height < levels) : machine.concretizeWithin levels v.toSym = .ok v := by
  induction levels generalizing v with
  | zero => cases hlevels
  | succ levels ih =>
    cases v with
    | scalar s =>
      cases s with
      | iptr int =>
        have hrange := Value.scalarsIn_scalar.1 hv
        have hwrap : wrapUnsigned machine.target.pointerBits int = int := by
          rw [wrapUnsigned_eq_emod, Int.emod_eq_of_lt hrange.1 hrange.2]
        simp only [Value.toSym, concretizeWithin, concretizeBy, hwrap]
      | _ => rfl
    | void => rfl
    | poison ty => rfl
    | aggregate kind members =>
      have hheights := Value.height_aggregate_lt_iff.1 hlevels
      have hmembers : (members.map Value.toSym).mapM (machine.concretizeWithin levels) =
          .ok members := by
        rw [Outcome.mapM_eq_ok, List.forall₂_map_left_iff, List.forall₂_same]
        exact fun m hm => ih (Value.scalarsIn_aggregate.1 hv m hm) (hheights m hm)
      simp only [Value.toSym, Value.toSyms_eq_map, concretizeWithin, concretizeBy, hmembers,
        Outcome.map_ok]

/-- With fewer levels than it takes, the walk gives up. So no value is decided only in part. -/
theorem concretizeWithin_toSym_of_height_le (hv : v.ScalarsIn machine.target.Canonical)
    (hlevels : levels ≤ v.height) :
    machine.concretizeWithin levels v.toSym = .error .tooDeep := by
  induction levels generalizing v with
  | zero => rfl
  | succ levels ih =>
    cases v with
    | aggregate kind members =>
      rw [Value.scalarsIn_aggregate] at hv
      have hmembers : (members.map Value.toSym).mapM (machine.concretizeWithin levels) =
          .error .tooDeep := by
        cases hmapM : (members.map Value.toSym).mapM (machine.concretizeWithin levels) with
        | ok ds =>
          -- then no member would be as deep as the walk goes
          rw [Outcome.mapM_eq_ok, List.forall₂_map_left_iff] at hmapM
          have hlow : ∀ m ∈ members, m.height < levels := by
            intro m hm
            by_contra hdeep
            obtain ⟨d, -, hd⟩ := exists_mem_of_forall₂ hmapM hm
            cases (ih (hv m hm) (Nat.le_of_not_lt hdeep)).symm.trans hd
          exact absurd (Value.height_aggregate_lt_iff.2 hlow) (Nat.not_lt_of_le hlevels)
        | error fault =>
          obtain ⟨_, hmem, hfault⟩ := Outcome.mapM_eq_error hmapM
          obtain ⟨m, hm, rfl⟩ := List.mem_map.1 hmem
          by_cases hlow : m.height < levels
          · cases (concretizeWithin_toSym (hv m hm) hlow).symm.trans hfault
          · rw [Except.error.inj (hfault.symm.trans (ih (hv m hm) (Nat.le_of_not_lt hlow)))]
      simp only [Value.toSym, Value.toSyms_eq_map, concretizeWithin, concretizeBy, hmembers,
        Outcome.map_error]
    | _ => cases hlevels

end Machine

namespace Value

/-- A value that is written out has the type that it had. -/
theorem HasTy.toSym {v : Value} {t : Ty} (h : v.HasTy t) : v.toSym.HasTy t := by
  induction v using byMembers generalizing t with
  | scalar s => exact h.scalar_eq ▸ .scalar s
  | void =>
    cases h
    exact .void
  | poison ty => exact h.poison_eq ▸ .poison ty
  | aggregate kind members ih =>
    obtain ⟨hkind, hmembers⟩ := h.members
    rw [Value.toSym, toSyms_eq_map]
    exact .aggregate hkind
      (List.forall₂_map_left_iff.2 (forall₂_of_mem hmembers fun m hm _ _ hmu => ih m hm hmu))

/-- A concrete value has the shape of its type, if there are enough levels, which are as many as it
takes to decide it. -/
theorem shapeWithin_toSym {v : Value} {t : Ty} {levels : Nat} (hty : v.HasTy t)
    (hlevels : v.height < levels) : v.toSym.shapeWithin levels t = .ok () :=
  SymValue.shapeWithin_of_hasTy hty.toSym hlevels

end Value

namespace Machine

variable {v : Value} {t : Ty}

/-- A concrete value that is not too deep can be stored at its type, as long as there is an id left.
-/
theorem exists_encode_toSym (machine : Machine) (hty : v.HasTy t) (ht : t.Supported)
    (hheight : v.height ≤ depthLimit) {ids : StoreIds} (hids : ids.next < StoreIds.last) :
    ∃ out ids', machine.encode v.toSym t ids = (.ok out, ids') := by
  obtain ⟨id, ids', hfresh⟩ := StoreIds.exists_fresh_eq_ok hids
  have hcheck := (Ty.checkSupported_eq_ok_iff t).2 ht
  have hshape : v.toSym.checkShape t = .ok () :=
    Value.shapeWithin_toSym hty (Nat.lt_succ_of_le hheight)
  cases v with
  | void =>
    cases hty
    exact ⟨[], ids, rfl⟩
  | _ =>
    simp only [Value.toSym] at hshape ⊢
    simp only [encode, hcheck, hshape, hfresh]
    exact ⟨_, _, rfl⟩

/-! ## Deciding what was decided -/

/-- Whatever is decided has its pointer-sized integers in the range of pointers, and is decided as
itself exactly if it is not nested deeper than a walk goes. What is decided may be deeper than the
walk that decided it, as undefined values are of types of any depth. -/
theorem concretize_toSym_of_concretize (target : Target) (hp : 8 * target.pointerSize < 2 ^ 32)
    {v : SymValue} {d : Value} (hd : (standard target).concretize v = .ok d) :
    (∀ int, .iptr int ∈ d.parts → 0 ≤ int ∧ int < 2 ^ target.pointerBits) ∧
      ((standard target).concretize d.toSym = .ok d ↔ d.height ≤ depthLimit) := by
  have hcanonical := canonical_concretizeWithin hp hd
  refine ⟨fun int hint => hcanonical _ hint, ?_, ?_⟩
  · intro hagain
    by_contra hdeep
    have hstop : (standard target).concretize d.toSym = .error .tooDeep :=
      concretizeWithin_toSym_of_height_le hcanonical (Nat.lt_of_not_le hdeep)
    cases hstop.symm.trans hagain
  · intro hheight
    exact concretizeWithin_toSym hcanonical (Nat.lt_succ_of_le hheight)

/-- The standard target with pointers of two bytes. -/
def shortPointers : Target :=
  { Target.standard with
    pointerSize := 2
    pointerSize_le := by decide }

/-- Numbers that are wider than pointers of two bytes, and a NaN with a payload. -/
def wideNumbers : SymValue :=
  .aggregate (.record .struct)
    [.scalar (.iptr (-1)),
      .binary (.int (.sub false false)) (.scalar (.iptr 0)) (.scalar (.iptr 2)),
      .cast .ptrtoint .pointer (.scalar (.address ⟨0x12345, .nil⟩)) .iptr,
      .scalar (.float 0x7fc00001)]

/-- Numbers beyond the range are decided as numbers in it, and those are left alone the second time,
as is the payload of a NaN. -/
theorem concretize_toSym_wideNumbers :
    ∃ d, 8 * shortPointers.pointerSize < 2 ^ 32 ∧
      (standard shortPointers).concretize wideNumbers = .ok d ∧
      (∀ int, .iptr int ∈ d.parts → 0 ≤ int ∧ int < 2 ^ shortPointers.pointerBits) ∧
      ((standard shortPointers).concretize d.toSym = .ok d ↔ d.height ≤ depthLimit) := by
  have hd : (standard shortPointers).concretize wideNumbers =
      .ok (.aggregate (.record .struct)
        [.iptr 0xffff, .iptr 0xfffe, .iptr 0x2345, .float 0x7fc00001]) := rfl
  exact ⟨_, by decide, hd, concretize_toSym_of_concretize shortPointers (by decide) hd⟩

end Machine

end SymbolicBytes
