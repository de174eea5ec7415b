import SymbolicBytes.Proofs.Typing
import SymbolicBytes.SymValue.Shape
/-!
# The check of shapes

Which values the check of shapes lets through. A value that has a type passes the check against it,
as long as its aggregates are not nested deeper than the check goes (`shapeWithin_of_hasTy`), and a
literal passes only then (`Literal.shapeWithin_eq_ok_iff`). What the check refuses is refused as
malformed (`kind_of_shapeWithin_eq_error`).

`SymValue.nesting` says how deep the aggregates of a value are nested. It takes one level more than
that to check the value.
-/

namespace SymbolicBytes.SymValue

variable {check : SymValue → Ty → Outcome Unit} {v : SymValue} {t : Ty} {levels : Nat}

/-! ## Nesting -/

mutual

/-- How many aggregates lie inside one another above the innermost part of the value. What is inside
an expression does not count. -/
def nesting : SymValue → Nat
  | aggregate _ members => nestings members
  | _ => 0

/-- The nesting of an aggregate of the listed values. -/
def nestings : List SymValue → Nat
  | [] => 0
  | v :: vs => max (nesting v + 1) (nestings vs)

end

theorem nestings_le_iff {vs : List SymValue} :
    nestings vs ≤ levels ↔ ∀ v ∈ vs, v.nesting < levels := by
  induction vs with
  | nil => simp [nestings]
  | cons v vs ih =>
    simp only [nestings, Nat.max_le, ih, List.forall_mem_cons, Nat.lt_iff_add_one_le]

/-- There is a level below an aggregate for each of its members. -/
theorem nesting_aggregate_lt_iff {kind : AggregateKind} {members : List SymValue} :
    (aggregate kind members).nesting < levels + 1 ↔ ∀ m ∈ members, m.nesting < levels := by
  rw [Nat.lt_succ_iff, nesting, nestings_le_iff]

/-! ## Literals -/

/-- Whether nothing in the value waits for an operation or for bytes. -/
inductive Literal : SymValue → Prop where
  /-- a scalar -/
  | scalar (s : Scalar) : Literal (.scalar s)
  /-- an undefined value -/
  | undef (ty : Ty) : Literal (.undef ty)
  /-- poison -/
  | poison (ty : Ty) : Literal (.poison ty)
  /-- the result of a computation without result -/
  | void : Literal .void
  /-- an aggregate of literals -/
  | aggregate (kind : AggregateKind) {members : List SymValue}
      (hmembers : ∀ m ∈ members, Literal m) : Literal (.aggregate kind members)

/-! ## Members -/

theorem checkEach_eq_ok_iff {vs : List SymValue} {ts : List Ty} (hlen : vs.length = ts.length) :
    checkEach check vs ts = .ok () ↔ List.Forall₂ (fun v t => check v t = .ok ()) vs ts := by
  induction vs generalizing ts with
  | nil =>
    obtain rfl := List.length_eq_zero_iff.1 hlen.symm
    simp [checkEach]
  | cons v vs ih =>
    cases ts with
    | nil => cases hlen
    | cons t ts =>
      rw [checkEach, Outcome.check_bind_eq_ok, List.forall₂_cons, ih (Nat.succ.inj hlen)]

theorem checkAll_eq_ok_iff {vs : List SymValue} :
    checkAll check t vs = .ok () ↔ ∀ v ∈ vs, check v t = .ok () := by
  induction vs with
  | nil => simp [checkAll]
  | cons v vs ih =>
    rw [checkAll, Outcome.check_bind_eq_ok, List.forall_mem_cons, ih]

theorem shapeBy_record_eq_ok_iff {k l : RecordKind} {members : List SymValue} {fields : List Ty} :
    shapeBy check (.aggregate (.record k) members) (.record l fields) = .ok () ↔
      l = k ∧ List.Forall₂ (fun m u => check m u = .ok ()) members fields := by
  by_cases hkind : l = k
  · by_cases hlen : members.length = fields.length
    · simp [shapeBy, hkind, hlen, checkEach_eq_ok_iff hlen]
    · exact iff_of_false (by simp [shapeBy, hkind, hlen]) fun h => hlen h.2.length_eq
  · simp [shapeBy, hkind, Ne.symm hkind]

theorem shapeBy_sequence_eq_ok_iff {k l : SequenceKind} {members : List SymValue} {count : Nat}
    {element : Ty} :
    shapeBy check (.aggregate (.sequence k) members) (.sequence l count element) = .ok () ↔
      l = k ∧
        List.Forall₂ (fun m u => check m u = .ok ()) members (List.replicate count element) := by
  rw [forall₂_replicate_right]
  by_cases hkind : l = k
  · by_cases hlen : members.length = count
    · simp [shapeBy, hkind, hlen, checkAll_eq_ok_iff]
    · simp [shapeBy, hkind, hlen]
  · simp [shapeBy, hkind, Ne.symm hkind]

/-- An aggregate passes the check against the types of its kind with as many members, if its own
members pass it against those. Records check their fields one by one and sequences one type for all,
which this makes one case. -/
theorem shapeBy_aggregate_eq_ok_iff {kind : AggregateKind} {members : List SymValue} :
    shapeBy check (.aggregate kind members) t = .ok () ↔
      t.aggregateKind? = some kind ∧
        List.Forall₂ (fun m u => check m u = .ok ()) members t.memberTys := by
  cases t with
  | record l fields =>
    cases kind with
    | record k => simp [shapeBy_record_eq_ok_iff, Ty.aggregateKind?, Ty.memberTys]
    | sequence k => simp [shapeBy, Ty.aggregateKind?, isExpression, isLiteralOf]
  | sequence l count element =>
    cases kind with
    | record k => simp [shapeBy, Ty.aggregateKind?, isExpression, isLiteralOf]
    | sequence k => simp [shapeBy_sequence_eq_ok_iff, Ty.aggregateKind?, Ty.memberTys]
  | _ => simp [shapeBy, Ty.aggregateKind?, isExpression, isLiteralOf]

/-! ## Values of a type -/

/-- A value of a type passes the check against the type, if there are enough levels. The check looks
no further than aggregates, so it refuses no value that waits to be decided. -/
theorem shapeWithin_of_hasTy (hty : v.HasTy t) (hlevels : v.nesting < levels) :
    v.shapeWithin levels t = .ok () := by
  induction levels generalizing v t with
  | zero => cases hlevels
  | succ levels ih =>
    rw [shapeWithin]
    cases hty with
    | aggregate hkind hmembers =>
      rw [nesting_aggregate_lt_iff] at hlevels
      exact shapeBy_aggregate_eq_ok_iff.2
        ⟨hkind, forall₂_of_mem hmembers fun m hm u _ hmu => ih hmu (hlevels m hm)⟩
    | _ => simp [shapeBy, isExpression, isLiteralOf]

/-- A literal that passes the check against a type has the type, and there were enough levels. Of
other values this cannot be said, as an operation passes against any type. -/
theorem Literal.of_shapeWithin_eq_ok (hv : v.Literal) (h : v.shapeWithin levels t = .ok ()) :
    v.HasTy t ∧ v.nesting < levels := by
  induction levels generalizing v t with
  | zero => cases h
  | succ levels ih =>
    cases hv with
    | scalar s =>
      obtain rfl : s.ty = t := by
        simpa [shapeWithin, shapeBy, isExpression, isLiteralOf] using h
      exact ⟨.scalar s, Nat.succ_pos levels⟩
    | undef ty =>
      obtain rfl : ty = t := by
        simpa [shapeWithin, shapeBy, isExpression, isLiteralOf] using h
      exact ⟨.undef ty, Nat.succ_pos levels⟩
    | poison ty =>
      obtain rfl : ty = t := by
        simpa [shapeWithin, shapeBy, isExpression, isLiteralOf] using h
      exact ⟨.poison ty, Nat.succ_pos levels⟩
    | void =>
      cases t with
      | void => exact ⟨.void, Nat.succ_pos levels⟩
      | _ => cases h
    | aggregate kind hliterals =>
      obtain ⟨hkind, hmembers⟩ := shapeBy_aggregate_eq_ok_iff.1 h
      constructor
      · exact .aggregate hkind
          (forall₂_of_mem hmembers fun m hm u _ hmu => (ih (hliterals m hm) hmu).1)
      · rw [nesting_aggregate_lt_iff]
        intro m hm
        obtain ⟨u, -, hmu⟩ := exists_mem_of_forall₂ hmembers hm
        exact (ih (hliterals m hm) hmu).2

/-! ## Faults -/

theorem checkEach_eq_error {vs : List SymValue} {ts : List Ty} {fault : Fault}
    (h : checkEach check vs ts = .error fault) : ∃ v t, check v t = .error fault := by
  induction vs generalizing ts with
  | nil => cases h
  | cons v vs ih =>
    cases ts with
    | nil => cases h
    | cons t ts =>
      rcases Outcome.bind_eq_error.1 h with h | ⟨-, -, h⟩
      · exact ⟨v, t, h⟩
      · exact ih h

theorem checkAll_eq_error {vs : List SymValue} {fault : Fault}
    (h : checkAll check t vs = .error fault) : ∃ v, check v t = .error fault := by
  induction vs with
  | nil => cases h
  | cons v vs ih =>
    rcases Outcome.bind_eq_error.1 h with h | ⟨-, -, h⟩
    · exact ⟨v, h⟩
    · exact ih h

/-- What the check refuses is malformed, also where it gives up for being too deep. -/
theorem kind_of_shapeWithin_eq_error {fault : Fault} (h : v.shapeWithin levels t = .error fault) :
    fault.kind = .structural := by
  induction levels generalizing v t with
  | zero =>
    cases h
    rfl
  | succ levels ih =>
    unfold shapeWithin shapeBy at h
    split at h
    · cases h
      rfl
    · -- a struct
      split at h
      · cases h
        rfl
      · split at h
        · cases h
          rfl
        · obtain ⟨m, u, hfault⟩ := checkEach_eq_error h
          exact ih hfault
    · -- an array or a vector
      split at h
      · cases h
        rfl
      · split at h
        · cases h
          rfl
        · obtain ⟨m, hfault⟩ := checkAll_eq_error h
          exact ih hfault
    · split at h
      · cases h
      · cases h
        rfl

end SymbolicBytes.SymValue
