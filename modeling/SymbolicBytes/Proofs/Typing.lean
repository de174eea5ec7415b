import SymbolicBytes.Proofs.ByteClasses
import SymbolicBytes.Proofs.InstructionTyping
import SymbolicBytes.Proofs.ZeroValues
/-!
# Types of symbolic values

`SymValue.HasTy` gives symbolic values their types, and deciding a value keeps its type
(`keepsTypes_concretizeWithin`): whatever is decided of a value of a type is a value of that type,
poison included. Bytes have the type that they are read at. Only where they are one whole store does
their type rest on that of the parent, so parents must have the types that they were stored at.
-/

namespace SymbolicBytes

/-! ## Parts at the end of a path -/

namespace Value

/-- A part of a value has the type of that part, of whatever is poison on the way as well. -/
theorem HasTy.extractPath {v d : Value} {t m : Ty} {path : List Nat} (hv : v.HasTy t)
    (hpath : t.memberAt? path = some m) (h : v.extractPath path = .ok d) : d.HasTy m := by
  induction path generalizing v t with
  | nil =>
    rw [extractPath_nil] at h
    obtain rfl := Except.ok.inj h
    obtain rfl := Option.some.inj hpath
    exact hv
  | cons index path ih =>
    rcases Value.extractPath_inv h with
      ⟨ty, part, rfl, hpart, rfl⟩ | ⟨kind, members, part, rfl, hpart, h⟩
    · rw [hv.poison_eq, hpart] at hpath
      obtain rfl := Option.some.inj hpath
      exact .poison part
    · obtain ⟨member, hmember, hrest⟩ := Option.bind_eq_some_iff.1 hpath
      rw [Ty.member?_eq_memberTys] at hmember
      obtain ⟨-, hmembers⟩ := hv.members
      exact ih (getElem?_of_forall₂ hmembers hpart hmember) hrest h

/-- Poison that is spelled out has the type still. -/
theorem HasTy.spellOut {v d : Value} {t : Ty} (hv : v.HasTy t) (h : v.spellOut = .ok d) :
    d.HasTy t := by
  rcases Value.spellOut_inv h with ⟨ty, kind, rfl, hkind, rfl⟩ | ⟨-, rfl⟩
  · rw [hv.poison_eq]
    exact .aggregate hkind
      (List.forall₂_map_left_iff.2 (List.forall₂_same.2 fun m _ => .poison m))
  · exact hv

/-- A value with a part replaced has the type that it had, if the new part has the type of the old.
-/
theorem HasTy.insertPath {v element d : Value} {t m : Ty} {path : List Nat} (hv : v.HasTy t)
    (hpath : t.memberAt? path = some m) (he : element.HasTy m)
    (h : v.insertPath path element = .ok d) : d.HasTy t := by
  induction path generalizing v t d with
  | nil =>
    rw [insertPath_nil] at h
    obtain rfl := Except.ok.inj h
    obtain rfl := Option.some.inj hpath
    exact he
  | cons index path ih =>
    obtain ⟨member, hmember, hrest⟩ := Option.bind_eq_some_iff.1 hpath
    rw [Ty.member?_eq_memberTys] at hmember
    obtain ⟨kind, members, part, updated, hspell, hpart, hupdated, rfl⟩ := Value.insertPath_inv h
    obtain ⟨hkind, hmembers⟩ := (hv.spellOut hspell).members
    have hpart := getElem?_of_forall₂ hmembers hpart hmember
    exact .aggregate hkind (forall₂_set hmembers hmember (ih hpart hrest hupdated))

end Value

/-! ## Types of symbolic values -/

/-- Which types a symbolic value has. No operator is held to the types that it applies to: at
others it has no result, and then there is nothing to give a type to. -/
inductive SymValue.HasTy : SymValue → Ty → Prop where
  /-- a scalar has the type of its kind -/
  | scalar (s : Scalar) : HasTy (.scalar s) s.ty
  /-- an undefined value has its type -/
  | undef (ty : Ty) : HasTy (.undef ty) ty
  /-- poison has the type that it is poison of -/
  | poison (ty : Ty) : HasTy (.poison ty) ty
  /-- the result of a computation without result -/
  | void : HasTy .void .void
  /-- an aggregate is of the same kind as its type and has the members of it -/
  | aggregate {kind : AggregateKind} {members : List SymValue} {ty : Ty}
      (hkind : ty.aggregateKind? = some kind) (hmembers : List.Forall₂ HasTy members ty.memberTys) :
      HasTy (.aggregate kind members) ty
  /-- an operation has two operands of one type -/
  | binary (op : BinaryOp) {left right : SymValue} {ty : Ty} (hleft : HasTy left ty)
      (hright : HasTy right ty) : HasTy (.binary op left right) (op.resultTy ty)
  /-- a conversion goes from the type of its operand to the other type -/
  | cast (op : Cast) {value : SymValue} {source : Ty} (target : Ty) (hvalue : HasTy value source) :
      HasTy (.cast op source value target) target
  /-- a choice by a truth value has branches of one type -/
  | select {cond ifTrue ifFalse : SymValue} {ty : Ty} (hcond : HasTy cond .bit)
      (htrue : HasTy ifTrue ty) (hfalse : HasTy ifFalse ty) : HasTy (.select cond ifTrue ifFalse) ty
  /-- a choice by lanes has branches of one vector type with as many lanes -/
  | selectLanes {cond ifTrue ifFalse : SymValue} {count : Nat} {element : Ty}
      (hcond : HasTy cond (.vector count .bit)) (htrue : HasTy ifTrue (.vector count element))
      (hfalse : HasTy ifFalse (.vector count element)) :
      HasTy (.select cond ifTrue ifFalse) (.vector count element)
  /-- a part has the type at the end of its path -/
  | extract {whole : SymValue} {path : List Nat} {ty member : Ty} (hwhole : HasTy whole ty)
      (hpath : ty.memberAt? path = some member) : HasTy (.extract whole path) member
  /-- a part is replaced by a value of the type at the end of its path -/
  | insert {whole element : SymValue} {path : List Nat} {ty member : Ty} (hwhole : HasTy whole ty)
      (hpath : ty.memberAt? path = some member) (helement : HasTy element member) :
      HasTy (.insert whole element path) ty
  /-- bytes have the type that they are read at, if the parent of each has the type that it was
  stored at -/
  | concat {bytes : List SymByte} (ty : Ty) (hparents : ∀ b ∈ bytes, HasTy b.parent b.ty) :
      HasTy (.concat bytes ty) ty

namespace Machine

variable {machine : Machine} {decide : SymValue → Outcome Value}

/-! ## Choices -/

/-- A lane has the type of the lanes of both branches, as poison that a condition makes takes the
type of the first. -/
theorem hasTy_selectLane {ifTrue cond t e d : Value} {ty : Ty} (ht : t.HasTy ty) (he : e.HasTy ty)
    (h : selectLane ifTrue cond t e = .ok d) : d.HasTy ty := by
  rcases selectLane_inv h with ⟨_, u, -, hu, rfl⟩ | ⟨_, b, -, -, rfl⟩
  · rw [ht.ty?_eq hu]
    exact .poison ty
  · cases b with
    | true => exact ht
    | false => exact he

theorem hasTy_selectVector {conds : List Value} {t e d : Value} {element : Ty}
    (ht : t.HasTy (.vector conds.length element)) (he : e.HasTy (.vector conds.length element))
    (h : selectVector conds t e = .ok d) : d.HasTy (.vector conds.length element) := by
  obtain ⟨ts, es, ds, hts, hes, htlen, helen, hds, rfl⟩ := selectVector_inv h
  obtain ⟨hlen, hlanes⟩ := selectLanes_inv htlen helen hds
  apply Value.hasTy_vector hlen
  intro d hd
  obtain ⟨c, -, t', ht', e', he', hlane⟩ := hlanes d hd
  exact hasTy_selectLane (ht.of_members? hts t' ht') (he.of_members? hes e' he') hlane

/-- Whether what a walk decides of a value of a type is a value of that type. -/
def KeepsTypes (decide : SymValue → Outcome Value) : Prop :=
  ∀ {v : SymValue} {t : Ty} {d : Value}, v.HasTy t → decide v = .ok d → d.HasTy t

/-- A choice by one condition has the type of its branches. -/
theorem KeepsTypes.select (hd : KeepsTypes decide) {cond ifTrue ifFalse : SymValue} {ty : Ty}
    (hcond : cond.HasTy .bit) (htrue : ifTrue.HasTy ty) (hfalse : ifFalse.HasTy ty) {d : Value}
    (h : selectBy decide cond ifTrue ifFalse = .ok d) : d.HasTy ty := by
  obtain ⟨c, hc, h⟩ := selectBy_inv h
  rcases h with ⟨i, b, -, -, h⟩ | ⟨_, v, u, -, hv, hu, rfl⟩ | ⟨conds, t, e, rfl, -, -, -⟩
  · -- a truth value takes a branch
    cases b with
    | true => exact hd htrue h
    | false => exact hd hfalse h
  · -- poison takes the type of the first branch
    rw [(hd htrue hv).ty?_eq hu]
    exact .poison ty
  · -- a value of the type of bits is no vector
    obtain ⟨_, _, heq, -⟩ := (hd hcond hc).vector_inv
    cases heq

/-- A choice lane by lane has as many lanes as there are conditions, each from one of the branches
or poison. -/
theorem KeepsTypes.selectByLanes (hd : KeepsTypes decide) {cond ifTrue ifFalse : SymValue}
    {count : Nat} {element : Ty} (hcond : cond.HasTy (.vector count .bit))
    (htrue : ifTrue.HasTy (.vector count element)) (hfalse : ifFalse.HasTy (.vector count element))
    {d : Value} (h : selectBy decide cond ifTrue ifFalse = .ok d) :
    d.HasTy (.vector count element) := by
  obtain ⟨c, hc, h⟩ := selectBy_inv h
  rcases h with ⟨i, b, rfl, -, -⟩ | ⟨_, v, u, -, hv, hu, rfl⟩ | ⟨conds, t, e, rfl, ht, he, h⟩
  · -- a value of a vector type is no single bit
    cases (hd hcond hc).scalar_eq
  · -- poison takes the type of the first branch
    rw [(hd htrue hv).ty?_eq hu]
    exact .poison _
  · -- each lane takes its branch
    obtain ⟨_, _, heq, rfl, -⟩ := (hd hcond hc).vector_inv
    cases heq
    exact hasTy_selectVector (hd htrue ht) (hd hfalse he) h

/-- What bytes spell has the type that they are read at, and nothing is asked of their parents for
that. -/
theorem hasTy_valueOfBytesBy {bytes : List SymByte} {ty : Ty} {d : Value}
    (h : machine.valueOfBytesBy decide bytes ty = .ok d) : d.HasTy ty := by
  obtain ⟨-, ⟨-, rfl⟩ | ⟨_, values, -, -, h⟩⟩ := valueOfBytesBy_inv h
  · exact .poison ty
  · exact hasTy_ofBytes h

/-! ## The walk -/

/-- One level keeps types if those below it do. The cases are those of `concretizeBy`, one for each
kind of symbolic value. -/
theorem KeepsTypes.concretizeBy (hinstructions : machine.instructions.RespectsTypes)
    (hd : KeepsTypes decide) : KeepsTypes (machine.concretizeBy decide) := by
  intro v t d hv h
  cases hv with
  | scalar s =>
    cases s <;> cases h <;> exact .scalar _
  | undef ty => exact AddressSpace.hasTy_zeroValue h
  | poison ty =>
    cases h
    exact .poison _
  | void =>
    cases h
    exact .void
  | aggregate hkind hmembers =>
    obtain ⟨ds, hds, rfl⟩ := Outcome.map_eq_ok.1 h
    apply SymbolicBytes.Value.HasTy.aggregate hkind
    apply forall₂_of_common (Outcome.mapM_eq_ok.1 hds) hmembers
    intro _ _ _ hdecided hty
    exact hd hty hdecided
  | binary op hleft hright =>
    obtain ⟨l, r, hl, hr, ⟨u, hu, rfl⟩ | ⟨hnone, h⟩⟩ := concretizeBy_binary_inv h
    · rw [op.poisonTy_eq_resultTy, poisonOperand?_eq (hd hleft hl) (hd hright hr) hu]
      exact .poison _
    · exact hinstructions.binary (hd hleft hl) (hd hright hr) hnone h
  | cast op _ hvalue =>
    obtain ⟨w, hw, ⟨-, rfl⟩ | ⟨hpoison, h⟩⟩ := concretizeBy_cast_inv h
    · exact .poison _
    · exact hasTy_convert hinstructions (hd hvalue hw) hpoison h
  | select hcond htrue hfalse => exact hd.select hcond htrue hfalse h
  | selectLanes hcond htrue hfalse => exact hd.selectByLanes hcond htrue hfalse h
  | extract hwhole hpath =>
    obtain ⟨w, hw, h⟩ := Outcome.bind_eq_ok.1 h
    exact (hd hwhole hw).extractPath hpath h
  | insert hwhole hpath helement =>
    obtain ⟨w, e, hw, he, h⟩ := concretizeBy_insert_inv h
    exact (hd hwhole hw).insertPath hpath (hd helement he) h
  | concat ty hparents =>
    obtain ⟨-, ⟨parent, hintact, h⟩ | ⟨-, h⟩⟩ := concretizeBy_concat_inv h
    · -- one whole store, at the type that it is read at
      obtain ⟨first, rest, rfl, rfl, -, hall⟩ := of_intactParent?_eq_some hintact
      have hty := (hall first 0 rfl).2.1
      exact hd (hty ▸ hparents first (List.mem_cons_self ..)) h
    · exact hasTy_valueOfBytesBy h

/-- Deciding a value keeps its type, with however many levels. A walk that gives up decides nothing.
-/
theorem keepsTypes_concretizeWithin (hinstructions : machine.instructions.RespectsTypes)
    (levels : Nat) : KeepsTypes (machine.concretizeWithin levels) := by
  induction levels with
  | zero =>
    intro v t d _ h
    cases h
  | succ levels ih => exact KeepsTypes.concretizeBy hinstructions ih

/-- With the standard instructions, whatever is decided of a value of a type has the type. No
operator is held to its types by `SymValue.HasTy`, so nothing rests on a check that was made before.
-/
theorem hasTy_concretize (target : Target) {v : SymValue} {t : Ty} (hv : v.HasTy t) {d : Value}
    (h : (standard target).concretize v = .ok d) : d.HasTy t :=
  keepsTypes_concretizeWithin (InstructionSet.respectsTypes_standard _) _ hv h

/-- The lanes of a vector with poison in it, each cut to a limit that is read from bytes of an
undefined number. -/
def clampedLanes : SymValue :=
  let lanes := .aggregate (.sequence .vector) [.scalar (.int ⟨.i8, 3⟩), .poison (.int 8)]
  let limits :=
    .concat (SymByte.run (.undef (.int 32)) (.stored 1) (.int 32) 1 2) (.vector 2 (.int 8))
  .select (.binary (.intCmp .ult) lanes limits) lanes limits

/-- Lanes that are compared, chosen and read from bytes make a vector of the type that was said,
poison among them. -/
theorem hasTy_clampedLanes :
    clampedLanes.HasTy (.vector 2 (.int 8)) ∧
      ∃ d, (standard .standard).concretize clampedLanes = .ok d ∧ d.HasTy (.vector 2 (.int 8)) := by
  have hty : clampedLanes.HasTy (.vector 2 (.int 8)) := by
    have hlanes : SymValue.HasTy
        (.aggregate (.sequence .vector) [.scalar (.int ⟨.i8, 3⟩), .poison (.int 8)])
        (.vector 2 (.int 8)) :=
      .aggregate rfl (.cons (.scalar (.int ⟨.i8, 3⟩)) (.cons (.poison _) .nil))
    have hlimits : SymValue.HasTy
        (.concat (SymByte.run (.undef (.int 32)) (.stored 1) (.int 32) 1 2) (.vector 2 (.int 8)))
        (.vector 2 (.int 8)) := by
      refine .concat _ ?_
      intro b hb
      obtain ⟨i, -, rfl⟩ := List.mem_map.1 hb
      exact .undef _
    exact .selectLanes (.binary (.intCmp .ult) hlanes hlimits) hlanes hlimits
  have hd : (standard .standard).concretize clampedLanes =
      .ok (.vector [.int ⟨.i8, 0⟩, .poison (.int 8)]) := rfl
  exact ⟨hty, _, hd, hasTy_concretize _ hty hd⟩

end Machine

end SymbolicBytes
