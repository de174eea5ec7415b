import SymbolicBytes.Proofs.Levels
import SymbolicBytes.Proofs.Typing
/-!
# Choices

What a choice between two decided values is. `Value.Selected` says it of the values: a truth value
takes a branch, poison makes poison of the type of the branches, and a vector of truth values takes
its lanes one by one.

A choice has such a result wherever the type of the poison that it makes can be told from the first
branch. `Value.ShowsTy` is when a value tells its type: a sequence tells it by its first member, so
one without members does not. Elsewhere the choice is a fault (`concretize_select`).
-/

namespace SymbolicBytes

namespace Value

/-! ## Types that are told -/

/-- Whether the value alone tells its type. -/
inductive ShowsTy : Value → Prop where
  /-- a scalar tells its type -/
  | scalar (s : Scalar) : ShowsTy (.scalar s)
  /-- a sequence tells its type if it has a first member that does -/
  | sequence {kind : SequenceKind} {v : Value} {vs : List Value} (hhead : ShowsTy v) :
      ShowsTy (.aggregate (.sequence kind) (v :: vs))
  /-- a record tells its type if all its members do -/
  | record {kind : RecordKind} {vs : List Value} (hall : ∀ v ∈ vs, ShowsTy v) :
      ShowsTy (.aggregate (.record kind) vs)
  /-- the result of a computation without result tells its type -/
  | void : ShowsTy .void
  /-- poison tells what it is poison of -/
  | poison (ty : Ty) : ShowsTy (.poison ty)

theorem isSome_tys?_iff {vs : List Value} :
    (tys? vs).isSome = true ↔ ∀ v ∈ vs, v.ty?.isSome = true := by
  induction vs with
  | nil => simp [tys?]
  | cons v vs ih =>
    rw [List.forall_mem_cons, ← ih, tys?]
    cases v.ty? <;> cases tys? vs <;> simp

/-- The type of a value is told exactly if the value shows it. -/
theorem isSome_ty?_iff {v : Value} : v.ty?.isSome = true ↔ v.ShowsTy := by
  induction v using byMembers with
  | scalar s => exact iff_of_true rfl (.scalar s)
  | void => exact iff_of_true rfl .void
  | poison ty => exact iff_of_true rfl (.poison ty)
  | aggregate kind members ih =>
    cases kind with
    | sequence kind =>
      cases members with
      | nil => exact iff_of_false Bool.false_ne_true nofun
      | cons v vs =>
        rw [ty?, headTy?, Option.isSome_map, ih v (List.mem_cons_self ..)]
        constructor
        · exact .sequence
        · intro h
          cases h with
          | sequence hhead => exact hhead
    | record kind =>
      rw [ty?, Option.isSome_map, isSome_tys?_iff]
      constructor
      · exact fun h => .record fun v hv => (ih v hv).1 (h v hv)
      · intro h v hv
        cases h with
        | record hall => exact (ih v hv).2 (hall v hv)

instance (v : Value) : Decidable v.ShowsTy := decidable_of_iff _ isSome_ty?_iff

/-- A value of a type that tells its type tells that one, so it is a value of no other. -/
theorem HasTy.ty?_eq_some {v : Value} {t : Ty} (h : v.HasTy t) (hv : v.ShowsTy) :
    v.ty? = some t := by
  obtain ⟨u, hu⟩ := Option.isSome_iff_exists.1 (isSome_ty?_iff.2 hv)
  rw [hu, h.ty?_eq hu]

theorem ty?_eq_none {v : Value} (hv : ¬ v.ShowsTy) : v.ty? = none := by
  rwa [← isSome_ty?_iff, Bool.not_eq_true, Option.isSome_eq_false_iff,
    Option.isNone_iff_eq_none] at hv

/-- A value of the type of bits is a truth value or poison. -/
theorem HasTy.bit_inv {v : Value} (h : v.HasTy .bit) :
    (∃ b, v = .bit b) ∨ v = .poison .bit := by
  cases v with
  | poison ty => exact .inr (by rw [h.poison_eq])
  | void => cases h
  | aggregate kind members => cases h.members.1
  | scalar s =>
    refine .inl ?_
    cases s with
    | int i =>
      obtain ⟨w, bits⟩ := i
      cases w with
      | i1 =>
        refine ⟨bits == 1#1, ?_⟩
        clear h
        revert bits
        decide
      | _ => cases h.scalar_eq
    | _ => cases h.scalar_eq

/-! ## The result of a choice -/

/-- What a single condition makes of two values of a type. -/
inductive Chosen (ty : Ty) (ifTrue ifFalse : Value) : Value → Value → Prop where
  /-- true takes the first -/
  | ifTrue : Chosen ty ifTrue ifFalse (.bit true) ifTrue
  /-- false takes the second -/
  | ifFalse : Chosen ty ifTrue ifFalse (.bit false) ifFalse
  /-- poison makes poison of the type -/
  | poison (s : Ty) : Chosen ty ifTrue ifFalse (.poison s) (.poison ty)

/-- What the lanes of a condition make of those of two vectors of an element type, one by one. -/
inductive ChosenLanes (element : Ty) :
    List Value → List Value → List Value → List Value → Prop where
  /-- no lanes are left -/
  | nil : ChosenLanes element [] [] [] []
  /-- the first lane is chosen by the first condition -/
  | cons {c t e d : Value} {cs ts es ds : List Value} (hlane : Chosen element t e c d)
      (hrest : ChosenLanes element cs ts es ds) :
      ChosenLanes element (c :: cs) (t :: ts) (e :: es) (d :: ds)

/-- What a condition makes of two values of a type. -/
inductive Selected : Ty → Value → Value → Value → Value → Prop where
  /-- a single condition chooses one of them -/
  | whole {ty : Ty} {c t e d : Value} (hd : Chosen ty t e c d) : Selected ty c t e d
  /-- a vector of conditions chooses lane by lane -/
  | lanes {element : Ty} {cs ts es ds : List Value} (hds : ChosenLanes element cs ts es ds) :
      Selected (.vector cs.length element) (.vector cs) (.vector ts) (.vector es) (.vector ds)

theorem Chosen.hasTy {ty : Ty} {t e c d : Value} (h : Chosen ty t e c d) (ht : t.HasTy ty)
    (he : e.HasTy ty) : d.HasTy ty := by
  cases h with
  | ifTrue => exact ht
  | ifFalse => exact he
  | poison s => exact .poison ty

/-- As many lanes are chosen as there are conditions. -/
theorem ChosenLanes.hasTy {element : Ty} {cs ts es ds : List Value}
    (h : ChosenLanes element cs ts es ds) (hts : ∀ t ∈ ts, t.HasTy element)
    (hes : ∀ e ∈ es, e.HasTy element) :
    ds.length = cs.length ∧ ∀ d ∈ ds, d.HasTy element := by
  induction h with
  | nil => exact ⟨rfl, nofun⟩
  | cons hlane _ ih =>
    rw [List.forall_mem_cons] at hts hes
    obtain ⟨hlen, hds⟩ := ih hts.2 hes.2
    exact ⟨congrArg Nat.succ hlen, List.forall_mem_cons.2 ⟨hlane.hasTy hts.1 hes.1, hds⟩⟩

/-- What a condition makes of two values of a type is a value of that type. -/
theorem Selected.hasTy {ty : Ty} {c t e d : Value} (h : Selected ty c t e d) (ht : t.HasTy ty)
    (he : e.HasTy ty) : d.HasTy ty := by
  cases h with
  | whole hd => exact hd.hasTy ht he
  | lanes hds =>
    obtain ⟨hlen, hall⟩ := hds.hasTy (ht.of_members? rfl) (he.of_members? rfl)
    exact hasTy_vector hlen hall

/-- Whether the first branch tells its type wherever the condition is poison. -/
def TellsPoison (ifTrue : Value) : Value → Prop
  | .poison _ => ifTrue.ShowsTy
  | .vector cs =>
    ∀ ts, ifTrue = .vector ts → ∀ p ∈ cs.zip ts, p.1.isPoison = true → p.2.ShowsTy
  | _ => True

/-- The operands that a choice is about: a single condition with two values of one type, or a vector
of conditions with two vectors of as many lanes. -/
inductive Selectable : Ty → Value → Value → Value → Prop where
  /-- the condition is a truth value or poison -/
  | whole {ty : Ty} {c t e : Value} (hc : c.HasTy .bit) (ht : t.HasTy ty) (he : e.HasTy ty) :
      Selectable ty c t e
  /-- the condition has a truth value or poison for each lane, or is poison as a whole -/
  | lanes {count : Nat} {element : Ty} {c t e : Value} (hc : c.HasTy (.vector count .bit))
      (ht : t.HasTy (.vector count element)) (he : e.HasTy (.vector count element)) :
      Selectable (.vector count element) c t e

/-- The condition of a choice takes a branch, is poison, or has a condition for every lane. A branch
of a choice lane by lane that is poison as a whole has no lanes, and is set aside. -/
theorem Selectable.inv {ty : Ty} {c t e : Value} (h : Selectable ty c t e)
    (hwhole : ∀ cs, c = .vector cs → t.isPoison = false ∧ e.isPoison = false) :
    (∃ b, c = .bit b) ∨ (∃ s, c = .poison s) ∨
      ∃ element cs ts es, ty = .vector cs.length element ∧ c = .vector cs ∧ t = .vector ts ∧
        e = .vector es ∧ ts.length = cs.length ∧ es.length = cs.length ∧
        (∀ c ∈ cs, c.HasTy .bit) ∧ ∀ t ∈ ts, t.HasTy element := by
  cases h with
  | whole hc _ _ =>
    rcases hc.bit_inv with ⟨b, rfl⟩ | rfl
    · exact .inl ⟨b, rfl⟩
    · exact .inr (.inl ⟨_, rfl⟩)
  | lanes hc ht he =>
    cases hpoison : c.isPoison with
    | true =>
      cases c with
      | poison s => exact .inr (.inl ⟨s, rfl⟩)
      | _ => cases hpoison
    | false =>
      obtain ⟨cs, rfl, rfl, hcs⟩ := hc.sequence_inv hpoison
      obtain ⟨htrue, hfalse⟩ := hwhole cs rfl
      obtain ⟨ts, rfl, hlen, hts⟩ := ht.sequence_inv htrue
      obtain ⟨es, rfl, hlen', -⟩ := he.sequence_inv hfalse
      exact .inr (.inr ⟨_, cs, ts, es, rfl, rfl, rfl, rfl, hlen, hlen', hcs, hts⟩)

theorem Selectable.hasTy {ty : Ty} {c t e : Value} (h : Selectable ty c t e) :
    t.HasTy ty ∧ e.HasTy ty := by
  cases h with
  | whole _ ht he => exact ⟨ht, he⟩
  | lanes _ ht he => exact ⟨ht, he⟩

end Value

namespace Machine

open Value (Chosen ChosenLanes Selected Selectable)

variable {machine : Machine} {element : Ty}

/-! ## Lanes -/

theorem exists_selectLane (ifTrue e : Value) {c t : Value} (hc : c.HasTy .bit)
    (ht : t.HasTy element) (htold : c.isPoison = true → t.ShowsTy) :
    ∃ d, selectLane ifTrue c t e = .ok d ∧ Chosen element t e c d := by
  rcases hc.bit_inv with ⟨b, rfl⟩ | rfl
  · cases b with
    | true => exact ⟨t, rfl, .ifTrue⟩
    | false => exact ⟨e, rfl, .ifFalse⟩
  · refine ⟨.poison element, ?_, .poison _⟩
    rw [selectLane, ht.ty?_eq_some (htold rfl)]

theorem selectLane_eq_error {ifTrue c t e : Value} (hc : c.isPoison = true) (ht : ¬ t.ShowsTy) :
    selectLane ifTrue c t e = .error (.untypedLane ifTrue) := by
  cases c with
  | poison ty => rw [selectLane, Value.ty?_eq_none ht]
  | _ => cases hc

theorem exists_selectLanes (ifTrue : Value) {cs ts es : List Value}
    (hts : ts.length = cs.length) (hes : es.length = cs.length) (hcond : ∀ c ∈ cs, c.HasTy .bit)
    (htrue : ∀ t ∈ ts, t.HasTy element)
    (htold : ∀ p ∈ cs.zip ts, p.1.isPoison = true → p.2.ShowsTy) :
    ∃ ds, selectLanes ifTrue cs ts es = .ok ds ∧ ChosenLanes element cs ts es ds := by
  induction cs generalizing ts es with
  | nil =>
    obtain rfl := List.eq_nil_of_length_eq_zero hts
    obtain rfl := List.eq_nil_of_length_eq_zero hes
    exact ⟨[], rfl, .nil⟩
  | cons c cs ih =>
    obtain ⟨t, ts, rfl⟩ := List.exists_cons_of_length_eq_add_one hts
    obtain ⟨e, es, rfl⟩ := List.exists_cons_of_length_eq_add_one hes
    rw [List.zip_cons_cons, List.forall_mem_cons] at htold
    rw [List.forall_mem_cons] at hcond htrue
    obtain ⟨d, hd, hlane⟩ := exists_selectLane ifTrue e hcond.1 htrue.1 htold.1
    obtain ⟨ds, hds, hrest⟩ :=
      ih (Nat.succ.inj hts) (Nat.succ.inj hes) hcond.2 htrue.2 htold.2
    refine ⟨d :: ds, ?_, .cons hlane hrest⟩
    rw [selectLanes, hd, hds]
    rfl

theorem selectLanes_eq_error {ifTrue : Value} {cs ts es : List Value}
    (hts : ts.length = cs.length) (hes : es.length = cs.length) (hcond : ∀ c ∈ cs, c.HasTy .bit)
    (htrue : ∀ t ∈ ts, t.HasTy element)
    (huntold : ¬ ∀ p ∈ cs.zip ts, p.1.isPoison = true → p.2.ShowsTy) :
    selectLanes ifTrue cs ts es = .error (.untypedLane ifTrue) := by
  induction cs generalizing ts es with
  | nil => exact absurd nofun huntold
  | cons c cs ih =>
    obtain ⟨t, ts, rfl⟩ := List.exists_cons_of_length_eq_add_one hts
    obtain ⟨e, es, rfl⟩ := List.exists_cons_of_length_eq_add_one hes
    rw [List.zip_cons_cons, List.forall_mem_cons] at huntold
    rw [List.forall_mem_cons] at hcond htrue
    rw [selectLanes]
    by_cases htold : c.isPoison = true → t.ShowsTy
    · -- this lane is chosen, so a later one is not
      obtain ⟨d, hd, -⟩ := exists_selectLane ifTrue e hcond.1 htrue.1 htold
      rw [hd, ih (Nat.succ.inj hts) (Nat.succ.inj hes) hcond.2 htrue.2
        fun hrest => huntold ⟨htold, hrest⟩]
      rfl
    · obtain ⟨hc, ht⟩ := Classical.not_imp.1 htold
      rw [selectLane_eq_error hc ht]
      rfl

/-! ## Choices -/

section Decided

variable {decide : SymValue → Outcome Value} {cond ifTrue ifFalse : SymValue} {ty : Ty}
  {c t e : Value}

theorem selectBy_bit (b : Bool) (hc : decide cond = .ok (.bit b)) :
    selectBy decide cond ifTrue ifFalse = decide (if b then ifTrue else ifFalse) := by
  rw [selectBy, hc]
  cases b <;> rfl

theorem selectBy_poison {s : Ty} (hc : decide cond = .ok (.poison s)) (ht : decide ifTrue = .ok t) :
    selectBy decide cond ifTrue ifFalse =
      match t.ty? with
      | some ty => .ok (.poison ty)
      | none => .error (.untypedSelect t) := by
  rw [selectBy, hc, Outcome.ok_bind]
  simp only [ht, Outcome.ok_bind]
  cases t.ty? <;> rfl

theorem selectBy_vector {cs ts es : List Value} (hc : decide cond = .ok (.vector cs))
    (ht : decide ifTrue = .ok (.vector ts)) (he : decide ifFalse = .ok (.vector es))
    (hts : ts.length = cs.length) (hes : es.length = cs.length) :
    selectBy decide cond ifTrue ifFalse = .vector <$> selectLanes (.vector ts) cs ts es := by
  rw [selectBy, hc, Outcome.ok_bind]
  simp only [ht, he, Outcome.ok_bind, selectVector, Value.members?]
  rw [if_pos ⟨hts, hes⟩]

/-- A choice gives what the condition makes of the branches, if the type of poison is told. -/
theorem exists_selectBy (hc : decide cond = .ok c) (ht : decide ifTrue = .ok t)
    (he : decide ifFalse = .ok e) (htyped : Selectable ty c t e)
    (hwhole : ∀ cs, c = .vector cs → t.isPoison = false ∧ e.isPoison = false)
    (htold : t.TellsPoison c) :
    ∃ d, selectBy decide cond ifTrue ifFalse = .ok d ∧ Selected ty c t e d := by
  rcases htyped.inv hwhole with
    ⟨b, rfl⟩ | ⟨s, rfl⟩ | ⟨element, cs, ts, es, rfl, rfl, rfl, rfl, hts, hes, hcond, htrue⟩
  · rw [selectBy_bit b hc]
    cases b with
    | true => exact ⟨t, ht, .whole .ifTrue⟩
    | false => exact ⟨e, he, .whole .ifFalse⟩
  · rw [selectBy_poison hc ht, htyped.hasTy.1.ty?_eq_some htold]
    exact ⟨_, rfl, .whole (.poison s)⟩
  · obtain ⟨ds, hds, hlanes⟩ :=
      exists_selectLanes (.vector ts) hts hes hcond htrue (htold ts rfl)
    rw [selectBy_vector hc ht he hts hes, hds]
    exact ⟨_, rfl, .lanes hlanes⟩

/-- A choice is a fault if the type of poison is not told. There is no other fault to meet, as the
operands are decided and fit each other. -/
theorem selectBy_eq_error (hc : decide cond = .ok c) (ht : decide ifTrue = .ok t)
    (he : decide ifFalse = .ok e) (htyped : Selectable ty c t e)
    (hwhole : ∀ cs, c = .vector cs → t.isPoison = false ∧ e.isPoison = false)
    (huntold : ¬ t.TellsPoison c) :
    selectBy decide cond ifTrue ifFalse =
      .error (if c.isPoison then .untypedSelect t else .untypedLane t) := by
  rcases htyped.inv hwhole with
    ⟨b, rfl⟩ | ⟨s, rfl⟩ | ⟨element, cs, ts, es, rfl, rfl, rfl, rfl, hts, hes, hcond, htrue⟩
  · exact absurd trivial huntold
  · rw [selectBy_poison hc ht, Value.ty?_eq_none huntold]
    rfl
  · have hlanes : ¬ ∀ p ∈ cs.zip ts, p.1.isPoison = true → p.2.ShowsTy := by
      intro hall
      refine huntold fun ts' hts' => ?_
      cases hts'
      exact hall
    rw [selectBy_vector hc ht he hts hes, selectLanes_eq_error hts hes hcond htrue hlanes]
    rfl

end Decided

/-- A choice between operands that are decided is what the condition makes of their values, wherever
the first branch tells the type of the poison that is made of it, and elsewhere it is a fault. Both
branches are taken to be decided, although a single truth value looks at one of them only. -/
theorem concretize_select {cond ifTrue ifFalse : SymValue} {ty : Ty} {c t e : Value}
    (hc : machine.concretize cond = .ok c) (ht : machine.concretize ifTrue = .ok t)
    (he : machine.concretize ifFalse = .ok e) (htyped : Selectable ty c t e)
    (hwhole : ∀ cs, c = .vector cs → t.isPoison = false ∧ e.isPoison = false)
    (hdeep : machine.concretize (.select cond ifTrue ifFalse) ≠ .error .tooDeep) :
    (t.TellsPoison c → ∃ d, machine.concretize (.select cond ifTrue ifFalse) = .ok d ∧
        d.HasTy ty ∧ Selected ty c t e d) ∧
      (¬ t.TellsPoison c → ∃ fault,
        machine.concretize (.select cond ifTrue ifFalse) = .error fault ∧
          fault.kind = .structural) := by
  -- with all levels, the operands are decided as they are outside of the choice
  have hselect : machine.concretize (.select cond ifTrue ifFalse) =
      selectBy machine.concretize cond ifTrue ifFalse :=
    (sameUnlessTooDeep_selectBy (fun v => sameUnlessTooDeep_of_le (Nat.le_succ depthLimit) v) cond
      ifTrue ifFalse).resolve_left hdeep
  rw [hselect]
  constructor
  · intro htold
    obtain ⟨d, hd, hselected⟩ := exists_selectBy hc ht he htyped hwhole htold
    exact ⟨d, hd, hselected.hasTy htyped.hasTy.1 htyped.hasTy.2, hselected⟩
  · intro huntold
    rw [selectBy_eq_error hc ht he htyped hwhole huntold]
    refine ⟨_, rfl, ?_⟩
    split <;> rfl

/-- The type of arrays without members. -/
def emptyTy : Ty := .sequence .array 0 (.int 8)

/-- The array without members, which does not tell its type. -/
def emptyArray : Value := .aggregate (.sequence .array) []

theorem hasTy_emptyArray : emptyArray.HasTy emptyTy := .aggregate rfl .nil

/-- A condition for each way to choose a lane. -/
def threeConds : Value := .vector [.bit true, .poison .bit, .bit false]

/-- Three lanes of which the middle one tells its type. -/
def middleTold : Value := .vector [emptyArray, .poison emptyTy, emptyArray]

/-- Three lanes of which the first one is poison. -/
def firstPoison : Value := .vector [.poison emptyTy, emptyArray, emptyArray]

/-- Lanes that do not tell their type are chosen by truth values, and poison by poison. -/
theorem concretize_select_threeConds :
    ∃ d, (standard .standard).concretize threeConds.toSym = .ok threeConds ∧
      (standard .standard).concretize middleTold.toSym = .ok middleTold ∧
      (standard .standard).concretize firstPoison.toSym = .ok firstPoison ∧
      Selectable (.vector 3 emptyTy) threeConds middleTold firstPoison ∧
      middleTold.TellsPoison threeConds ∧
      (standard .standard).concretize
          (.select threeConds.toSym middleTold.toSym firstPoison.toSym) = .ok d ∧
      d.HasTy (.vector 3 emptyTy) ∧
      Selected (.vector 3 emptyTy) threeConds middleTold firstPoison d := by
  have htyped : Selectable (.vector 3 emptyTy) threeConds middleTold firstPoison := by
    refine .lanes (Value.hasTy_vector rfl ?_) (Value.hasTy_vector rfl ?_)
      (Value.hasTy_vector rfl ?_)
    · simp only [List.forall_mem_cons]
      exact ⟨Value.hasTy_bit true, .poison .bit, Value.hasTy_bit false, nofun⟩
    · simp only [List.forall_mem_cons]
      exact ⟨hasTy_emptyArray, .poison emptyTy, hasTy_emptyArray, nofun⟩
    · simp only [List.forall_mem_cons]
      exact ⟨.poison emptyTy, hasTy_emptyArray, hasTy_emptyArray, nofun⟩
  have htold : middleTold.TellsPoison threeConds := by
    rintro ts ⟨⟩
    decide
  have hc : (standard .standard).concretize threeConds.toSym = .ok threeConds := rfl
  have ht : (standard .standard).concretize middleTold.toSym = .ok middleTold := rfl
  have he : (standard .standard).concretize firstPoison.toSym = .ok firstPoison := rfl
  have hdeep : (standard .standard).concretize
      (.select threeConds.toSym middleTold.toSym firstPoison.toSym) ≠ .error .tooDeep := nofun
  obtain ⟨d, hd⟩ := (concretize_select hc ht he htyped (fun _ _ => ⟨rfl, rfl⟩) hdeep).1 htold
  exact ⟨d, hc, ht, he, htyped, htold, hd⟩

/-- A choice by poison between two empty arrays is a fault, since their type is not told. So is a
choice by a vector of conditions of which one branch is poison as a whole, since it has no lanes. -/
theorem concretize_select_faults :
    (Selectable emptyTy (.poison .bit) emptyArray emptyArray ∧
      (standard .standard).concretize (.poison .bit) = .ok (.poison .bit) ∧
      (standard .standard).concretize emptyArray.toSym = .ok emptyArray ∧
      (standard .standard).concretize (.select (.poison .bit) emptyArray.toSym emptyArray.toSym) =
        .error (.untypedSelect emptyArray)) ∧
    ∃ c t e, Selectable (.vector 1 (.int 8)) c t e ∧
      (standard .standard).concretize c.toSym = .ok c ∧
      (standard .standard).concretize t.toSym = .ok t ∧
      (standard .standard).concretize e.toSym = .ok e ∧
      (standard .standard).concretize (.select c.toSym t.toSym e.toSym) =
        .error (.selectWithoutLanes t e) := by
  refine ⟨⟨.whole (.poison _) hasTy_emptyArray hasTy_emptyArray, rfl, rfl, rfl⟩,
    .vector [.bit true], .poison (.vector 1 (.int 8)), .vector [.int ⟨.i8, 2⟩],
    .lanes (Value.hasTy_vector rfl ?_) (.poison _) (Value.hasTy_vector rfl ?_), rfl, rfl, rfl, rfl⟩
  · simp only [List.forall_mem_singleton]
    exact Value.hasTy_bit true
  · simp only [List.forall_mem_singleton]
    exact .scalar _

end Machine

end SymbolicBytes
