import SymbolicBytes.Fault
import SymbolicBytes.Proofs.Lists
import SymbolicBytes.Proofs.Sizes
/-!
# Parts and types of values

What a value has inside, and which types it has. `Value.parts` lists everything inside a value, and
the predicates on values say what may be found there: no poison (`PoisonFree`), no poison that takes
up bytes (`Target.NoPoisonBytes`), only scalars of some sort (`ScalarsIn`).

`Value.HasTy` is the typing of values. A poison value has its type only, but a sequence without
members has every sequence type of length zero, so types are not unique; where `Value.ty?` tells a
type it is the only one (`HasTy.ty?_eq`).
-/

namespace SymbolicBytes

namespace Value

/-- Induction over values, in which an aggregate may use what holds of each of its members. -/
theorem byMembers {motive : Value → Prop} (scalar : ∀ s, motive (.scalar s))
    (aggregate : ∀ kind members, (∀ v ∈ members, motive v) → motive (.aggregate kind members))
    (void : motive .void) (poison : ∀ ty, motive (.poison ty)) : ∀ v, motive v := by
  refine @Value.rec motive (fun vs => ∀ v ∈ vs, motive v) scalar aggregate void poison ?_ ?_
  · intro v hv
    cases hv
  · intro head tail hhead htail v hv
    rcases List.mem_cons.1 hv with rfl | hv
    · exact hhead
    · exact htail v hv

/-! ## Parts -/

mutual

/-- The value and everything inside it, from the outside in. -/
def parts : Value → List Value
  | scalar s => [scalar s]
  | aggregate kind members => aggregate kind members :: partsAll members
  | void => [void]
  | poison ty => [poison ty]

/-- The listed values and everything inside them. -/
def partsAll : List Value → List Value
  | [] => []
  | v :: vs => parts v ++ partsAll vs

end

theorem mem_partsAll {w : Value} {vs : List Value} : w ∈ partsAll vs ↔ ∃ v ∈ vs, w ∈ v.parts := by
  induction vs with
  | nil =>
    apply iff_of_false List.not_mem_nil
    rintro ⟨v, hv, -⟩
    exact List.not_mem_nil hv
  | cons v vs ih =>
    apply List.mem_append.trans
    simp only [ih, List.mem_cons, exists_eq_or_imp]

@[simp] theorem mem_parts_scalar {w : Value} {s : Scalar} : w ∈ (scalar s).parts ↔ w = scalar s :=
  List.mem_singleton

@[simp] theorem mem_parts_void {w : Value} : w ∈ void.parts ↔ w = void := List.mem_singleton

@[simp] theorem mem_parts_poison {w : Value} {ty : Ty} : w ∈ (poison ty).parts ↔ w = poison ty :=
  List.mem_singleton

theorem mem_parts_aggregate {w : Value} {kind : AggregateKind} {members : List Value} :
    w ∈ (aggregate kind members).parts ↔ w = aggregate kind members ∨ ∃ v ∈ members, w ∈ v.parts :=
  List.mem_cons.trans (or_congr_right mem_partsAll)

theorem mem_parts_self (v : Value) : v ∈ v.parts := by
  cases v <;> exact List.mem_cons_self ..

/-- Whether no part of the value is poison. -/
def PoisonFree (v : Value) : Prop := ∀ ty, poison ty ∉ v.parts

@[simp] theorem poisonFree_scalar (s : Scalar) : (scalar s).PoisonFree := by
  simp [PoisonFree]

@[simp] theorem poisonFree_void : void.PoisonFree := by
  simp [PoisonFree]

@[simp] theorem not_poisonFree_poison (ty : Ty) : ¬ (poison ty).PoisonFree :=
  fun h => h ty (mem_parts_self _)

@[simp] theorem poisonFree_aggregate {kind : AggregateKind} {members : List Value} :
    (aggregate kind members).PoisonFree ↔ ∀ v ∈ members, v.PoisonFree := by
  simp only [PoisonFree, mem_parts_aggregate, reduceCtorEq, false_or, not_exists, not_and]
  constructor
  · intro h v hv ty
    exact h ty v hv
  · intro h ty v hv
    exact h v hv ty

theorem PoisonFree.isPoison_eq_false {v : Value} (h : v.PoisonFree) : v.isPoison = false := by
  cases v with
  | poison ty => exact absurd h (not_poisonFree_poison ty)
  | _ => rfl

/-- Whether all scalars inside the value satisfy a predicate. -/
def ScalarsIn (P : Scalar → Prop) (v : Value) : Prop := ∀ s, scalar s ∈ v.parts → P s

variable {P : Scalar → Prop}

@[simp] theorem scalarsIn_scalar {s : Scalar} : (scalar s).ScalarsIn P ↔ P s := by
  simp [ScalarsIn]

@[simp] theorem scalarsIn_void : void.ScalarsIn P := by
  simp [ScalarsIn]

@[simp] theorem scalarsIn_poison (ty : Ty) : (poison ty).ScalarsIn P := by
  simp [ScalarsIn]

@[simp] theorem scalarsIn_aggregate {kind : AggregateKind} {members : List Value} :
    (aggregate kind members).ScalarsIn P ↔ ∀ v ∈ members, v.ScalarsIn P := by
  simp only [ScalarsIn, mem_parts_aggregate, reduceCtorEq, false_or]
  constructor
  · intro h v hv s hs
    exact h s ⟨v, hv, hs⟩
  · rintro h s ⟨v, hv, hs⟩
    exact h v hv s hs

/-! ## Provenance -/

mutual

/-- The value with the provenance of all its addresses forgotten. -/
def withWildcards : Value → Value
  | scalar (.address a) => scalar (.address ⟨a.bits, .wildcard⟩)
  | scalar s => scalar s
  | aggregate kind members => aggregate kind (withWildcardsAll members)
  | void => void
  | poison ty => poison ty

/-- The listed values with the provenance of all addresses forgotten. -/
def withWildcardsAll : List Value → List Value
  | [] => []
  | v :: vs => withWildcards v :: withWildcardsAll vs

end

theorem withWildcardsAll_eq_map (vs : List Value) : withWildcardsAll vs = vs.map withWildcards := by
  induction vs with
  | nil => simp [withWildcardsAll]
  | cons v vs ih => simp [withWildcardsAll, ih]

/-- Forgetting changes nothing where no address remembers where it came from, as in every value that
was built from bytes. -/
theorem withWildcards_eq_self {v : Value}
    (h : v.ScalarsIn fun s => ∀ a, s = .address a → a.provenance = .wildcard) :
    v.withWildcards = v := by
  induction v using byMembers with
  | scalar s =>
    cases s with
    | address a =>
      obtain ⟨bits, provenance⟩ := a
      obtain rfl : provenance = .wildcard := scalarsIn_scalar.1 h _ rfl
      rfl
    | _ => rfl
  | void => rfl
  | poison ty => rfl
  | aggregate kind members ih =>
    have hmembers : members.map withWildcards = members.map id :=
      List.map_congr_left fun v hv => ih v hv (scalarsIn_aggregate.1 h v hv)
    rw [withWildcards, withWildcardsAll_eq_map, hmembers, List.map_id]

/-- What does not depend on provenance holds of the scalars inside a value if it holds of them when
their provenance is forgotten. So it can be carried over from what the bytes of a value rebuild. -/
theorem ScalarsIn.of_withWildcards {v : Value}
    (hP : ∀ a : Address, P (.address ⟨a.bits, .wildcard⟩) → P (.address a))
    (h : v.withWildcards.ScalarsIn P) : v.ScalarsIn P := by
  induction v using byMembers with
  | scalar s =>
    cases s with
    | address a => exact scalarsIn_scalar.2 (hP a (scalarsIn_scalar.1 h))
    | _ => exact h
  | void => exact h
  | poison ty => exact h
  | aggregate kind members ih =>
    rw [withWildcards, withWildcardsAll_eq_map, scalarsIn_aggregate, List.forall_mem_map] at h
    exact scalarsIn_aggregate.2 fun v hv => ih v hv (h v hv)

theorem PoisonFree.of_withWildcards {v : Value} (h : v.withWildcards.PoisonFree) :
    v.PoisonFree := by
  induction v using byMembers with
  | scalar s => exact poisonFree_scalar s
  | void => exact h
  | poison ty => exact h
  | aggregate kind members ih =>
    rw [withWildcards, withWildcardsAll_eq_map, poisonFree_aggregate, List.forall_mem_map] at h
    exact poisonFree_aggregate.2 fun v hv => ih v hv (h v hv)

/-! ## Types -/

/-- Which types a value has. Poison of a type has that type only. -/
inductive HasTy : Value → Ty → Prop where
  /-- a scalar has the type of its kind -/
  | scalar (s : Scalar) : HasTy (.scalar s) s.ty
  /-- an aggregate is of the same kind as its type and has the members of it -/
  | aggregate {kind : AggregateKind} {members : List Value} {ty : Ty}
      (hkind : ty.aggregateKind? = some kind) (hmembers : List.Forall₂ HasTy members ty.memberTys) :
      HasTy (.aggregate kind members) ty
  /-- the result of a computation without result -/
  | void : HasTy .void .void
  /-- poison has the type that it is poison of -/
  | poison (ty : Ty) : HasTy (.poison ty) ty

theorem HasTy.scalar_eq {s : Scalar} {t : Ty} (h : HasTy (.scalar s) t) : t = s.ty := by
  cases h
  rfl

theorem HasTy.poison_eq {s t : Ty} (h : HasTy (.poison s) t) : t = s := by
  cases h
  rfl

/-- The members of an aggregate have the types of the members of any type that it has, one by one.
For a sequence these are copies of one type, so this serves records and sequences at once. -/
theorem HasTy.members {kind : AggregateKind} {members : List Value} {t : Ty}
    (h : HasTy (.aggregate kind members) t) :
    t.aggregateKind? = some kind ∧ List.Forall₂ HasTy members t.memberTys := by
  cases h with
  | aggregate hkind hmembers => exact ⟨hkind, hmembers⟩

theorem HasTy.of_withWildcards {v : Value} {t : Ty} (h : HasTy v.withWildcards t) :
    HasTy v t := by
  induction v using byMembers generalizing t with
  | scalar s =>
    cases s with
    | address a => exact h.scalar_eq ▸ .scalar (.address a)
    | _ => exact h
  | void => exact h
  | poison ty => exact h
  | aggregate kind members ih =>
    rw [withWildcards, withWildcardsAll_eq_map] at h
    obtain ⟨hkind, hmembers⟩ := h.members
    exact .aggregate hkind
      (forall₂_of_mem (List.forall₂_map_left_iff.1 hmembers) fun v hv _ _ hm => ih v hv hm)

/-- A value of a sequence type that is not poison as a whole is a sequence of that kind. It may
still have poison for members. -/
theorem HasTy.sequence_inv {v : Value} {kind : SequenceKind} {count : Nat} {element : Ty}
    (h : HasTy v (.sequence kind count element)) (hv : v.isPoison = false) :
    ∃ members, v = .aggregate (.sequence kind) members ∧ members.length = count ∧
      ∀ m ∈ members, HasTy m element := by
  cases v with
  | poison ty => cases hv
  | void => cases h
  | scalar s => cases s <;> cases h.scalar_eq
  | aggregate k members =>
    obtain ⟨hk, hm⟩ := h.members
    obtain rfl := Option.some.inj hk
    exact ⟨members, rfl, forall₂_replicate_right.1 hm⟩

theorem tys?_eq_of_forall₂ {vs : List Value} {ts us : List Ty}
    (h : List.Forall₂ (fun v t => ∀ u, v.ty? = some u → u = t) vs ts) (hus : tys? vs = some us) :
    us = ts := by
  induction h generalizing us with
  | nil => simpa [tys?, eq_comm] using hus
  | cons hv _ ih =>
    simp only [tys?, Option.bind_eq_some_iff, Option.map_eq_some_iff] at hus
    obtain ⟨u, hu, rest, hrest, rfl⟩ := hus
    rw [hv u hu, ih hrest]

/-- The type that a value tells is the only one that it has. Only empty sequences and aggregates
with such inside have more types, and those tell none. -/
theorem HasTy.ty?_eq {v : Value} {t u : Ty} (h : HasTy v t) (hu : v.ty? = some u) : u = t := by
  induction v using byMembers generalizing t u with
  | scalar s => simpa [ty?, h.scalar_eq, eq_comm] using hu
  | void =>
    cases h
    simpa [ty?, eq_comm] using hu
  | poison s =>
    rw [h.poison_eq]
    simpa [ty?, eq_comm] using hu
  | aggregate kind members ih =>
    obtain ⟨hkind, hmembers⟩ := h.members
    cases t with
    | sequence k count element =>
      obtain rfl := Option.some.inj hkind
      obtain ⟨hlen, hall⟩ := forall₂_replicate_right.1 hmembers
      -- a type is told by the first member, so there is one
      cases members with
      | nil => simp [ty?, headTy?] at hu
      | cons m ms =>
        simp only [ty?, headTy?, Option.map_eq_some_iff] at hu
        obtain ⟨e, he, rfl⟩ := hu
        rw [ih m (List.mem_cons_self ..) (hall m (List.mem_cons_self ..)) he, hlen]
    | record k fields =>
      obtain rfl := Option.some.inj hkind
      simp only [ty?, Option.map_eq_some_iff] at hu
      obtain ⟨us, hus, rfl⟩ := hu
      have hfields : List.Forall₂ (fun v t => ∀ u, v.ty? = some u → u = t) members fields :=
        forall₂_of_mem hmembers fun v hv t _ ht u hu => ih v hv ht hu
      rw [tys?_eq_of_forall₂ hfields hus]
    | _ => cases hkind

end Value

/-- Whether all poison inside the value is of types without bytes. -/
def Target.NoPoisonBytes (target : Target) (v : Value) : Prop :=
  ∀ ty, .poison ty ∈ v.parts → target.byteSize ty = 0

/-- Where there is no poison at all, there is none that takes up bytes. -/
theorem Value.PoisonFree.noPoisonBytes {target : Target} {v : Value} (h : v.PoisonFree) :
    target.NoPoisonBytes v := fun ty hty => absurd hty (h ty)

namespace Target

variable {target : Target}

@[simp] theorem noPoisonBytes_scalar (s : Scalar) : target.NoPoisonBytes (.scalar s) := by
  simp [NoPoisonBytes]

@[simp] theorem noPoisonBytes_void : target.NoPoisonBytes .void := by
  simp [NoPoisonBytes]

@[simp] theorem noPoisonBytes_poison {ty : Ty} :
    target.NoPoisonBytes (.poison ty) ↔ target.byteSize ty = 0 := by
  simp [NoPoisonBytes]

@[simp] theorem noPoisonBytes_aggregate {kind : AggregateKind} {members : List Value} :
    target.NoPoisonBytes (.aggregate kind members) ↔ ∀ v ∈ members, target.NoPoisonBytes v := by
  simp only [NoPoisonBytes, Value.mem_parts_aggregate, reduceCtorEq, false_or]
  constructor
  · intro h v hv ty hty
    exact h ty ⟨v, hv, hty⟩
  · rintro h ty ⟨v, hv, hty⟩
    exact h v hv ty hty

end Target

end SymbolicBytes
