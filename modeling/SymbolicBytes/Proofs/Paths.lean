import SymbolicBytes.Proofs.Typing
/-!
# Parts at the end of a path

Reading the part at the end of a path (`Value.extractPath`) and replacing it (`Value.insertPath`) go
about poison in two ways: reading asks its type for all that is left of the path at once, replacing
spells the poison out and goes on member by member. Seen from one member on they do the same
(`extractPath_cons_eq_ok_iff`, `insertPath_cons_eq_ok_iff`), so what is shown of them is shown by
induction on the path.

A value has parts exactly where its type has them, of the types that its type tells, and they can
be replaced by others of these types (`HasTy.navigatesAs`).
-/

namespace SymbolicBytes.Value

variable {v d e part : Value} {t m : Ty} {kind : AggregateKind} {members : List Value} {index : Nat}
  {path : List Nat} {fault : Fault}

/-! ## One member on -/

theorem aggregateKind?_of_member? (h : t.member? index = some m) :
    ∃ kind, t.aggregateKind? = some kind := by
  cases t <;> first | cases h | exact ⟨_, rfl⟩

/-- The parts of poison are poison of the types of its parts, so the type alone says where they are.
-/
theorem extractPath_poison_eq_ok_iff :
    (poison t).extractPath path = .ok part ↔ ∃ m, t.memberAt? path = some m ∧ part = poison m := by
  cases path with
  | nil => simp [Ty.memberAt?, eq_comm]
  | cons index path =>
    rw [extractPath]
    cases t.memberAt? (index :: path) with
    | none => simp
    | some m => simp [eq_comm]

/-- Reading goes on in the member, of poison that is spelled out as well. This is what makes reading
and replacing one recursion. -/
theorem extractPath_cons_eq_ok_iff :
    v.extractPath (index :: path) = .ok part ↔
      ∃ kind members member, v.spellOut = .ok (.aggregate kind members) ∧
        members[index]? = some member ∧ member.extractPath path = .ok part := by
  constructor
  · intro h
    rcases extractPath_inv h with
      ⟨ty, m, rfl, hpath, rfl⟩ | ⟨kind, members, member, rfl, hmember, hrest⟩
    · obtain ⟨u, hu, hrest⟩ := Option.bind_eq_some_iff.1 hpath
      obtain ⟨kind, hkind⟩ := aggregateKind?_of_member? hu
      rw [Ty.member?_eq_memberTys] at hu
      refine ⟨kind, _, .poison u, spellOut_poison hkind, ?_,
        extractPath_poison_eq_ok_iff.2 ⟨m, hrest, rfl⟩⟩
      rw [List.getElem?_map, hu, Option.map_some]
    · exact ⟨kind, members, member, rfl, hmember, hrest⟩
  · rintro ⟨kind, members, member, hspell, hmember, hrest⟩
    rcases spellOut_inv hspell with ⟨ty, k, rfl, -, heq⟩ | ⟨-, rfl⟩
    · cases heq
      rw [List.getElem?_map] at hmember
      obtain ⟨u, hu, rfl⟩ := Option.map_eq_some_iff.1 hmember
      obtain ⟨m, hm, rfl⟩ := extractPath_poison_eq_ok_iff.1 hrest
      rw [← Ty.member?_eq_memberTys] at hu
      exact extractPath_poison_eq_ok_iff.2 ⟨m, Option.bind_eq_some_iff.2 ⟨u, hu, hm⟩, rfl⟩
    · simp only [extractPath, members?, hmember, hrest]

theorem extractPath_cons_of_spellOut (hspell : v.spellOut = .ok (.aggregate kind members)) :
    v.extractPath (index :: path) = .ok part ↔
      ∃ member, members[index]? = some member ∧ member.extractPath path = .ok part := by
  rw [extractPath_cons_eq_ok_iff, hspell]
  constructor
  · rintro ⟨_, _, member, heq, hmember, hrest⟩
    cases heq
    exact ⟨member, hmember, hrest⟩
  · rintro ⟨member, hmember, hrest⟩
    exact ⟨kind, members, member, rfl, hmember, hrest⟩

/-- Replacing goes on in the member, and puts back what it gives there. -/
theorem insertPath_cons (hspell : v.spellOut = .ok (.aggregate kind members))
    (hpart : members[index]? = some part) (path : List Nat) (e : Value) :
    v.insertPath (index :: path) e =
      (fun updated => .aggregate kind (members.set index updated)) <$> part.insertPath path e := by
  simp only [insertPath, hspell, hpart]
  cases part.insertPath path e <;> rfl

theorem insertPath_cons_eq_ok_iff :
    v.insertPath (index :: path) e = .ok d ↔
      ∃ kind members member updated, v.spellOut = .ok (.aggregate kind members) ∧
        members[index]? = some member ∧ member.insertPath path e = .ok updated ∧
        d = .aggregate kind (members.set index updated) := by
  constructor
  · exact insertPath_inv
  · rintro ⟨kind, members, member, updated, hspell, hmember, hupdated, rfl⟩
    rw [insertPath_cons hspell hmember, hupdated, Outcome.map_ok]

/-- There is a part to replace where there is one to read. Whether the new part fits is not asked.
-/
theorem exists_insertPath_iff :
    (∃ d, v.insertPath path e = .ok d) ↔ ∃ part, v.extractPath path = .ok part := by
  induction path generalizing v with
  | nil => simp
  | cons index path ih =>
    simp only [insertPath_cons_eq_ok_iff, extractPath_cons_eq_ok_iff]
    constructor
    · rintro ⟨d, kind, members, member, updated, hspell, hmember, hupdated, -⟩
      obtain ⟨part, hpart⟩ := ih.1 ⟨updated, hupdated⟩
      exact ⟨part, kind, members, member, hspell, hmember, hpart⟩
    · rintro ⟨part, kind, members, member, hspell, hmember, hpart⟩
      obtain ⟨updated, hupdated⟩ := ih.2 ⟨part, hpart⟩
      exact ⟨_, kind, members, member, updated, hspell, hmember, hupdated, rfl⟩

/-! ## Faults -/

/-- A path along which there is no part is malformed input, and never a fault of its value. -/
theorem kind_of_extractPath_eq_error (h : v.extractPath path = .error fault) :
    fault.kind = .structural := by
  induction path generalizing v with
  | nil => simp at h
  | cons index path ih =>
    cases v with
    | scalar s => cases h; rfl
    | void => cases h; rfl
    | poison ty =>
      rw [extractPath] at h
      split at h <;> cases h
      rfl
    | aggregate kind members =>
      simp only [extractPath, members?] at h
      split at h
      · cases h
        rfl
      · exact ih h

theorem kind_of_spellOut_eq_error (h : v.spellOut = .error fault) : fault.kind = .structural := by
  simp only [spellOut] at h
  split at h <;> cases h
  rfl

theorem kind_of_insertPath_eq_error (h : v.insertPath path e = .error fault) :
    fault.kind = .structural := by
  induction path generalizing v fault with
  | nil => simp at h
  | cons index path ih =>
    rw [insertPath] at h
    split at h
    · rename_i hspell
      cases h
      exact kind_of_spellOut_eq_error hspell
    · split at h
      · cases h
        rfl
      · split at h
        · rename_i hfault
          cases h
          exact ih hfault
        · cases h
    · cases h
      rfl

/-! ## Parts of a type and of its values -/

/-- A value of an aggregate type has the members of the type, spelled out if it is poison. -/
theorem HasTy.exists_spellOut (hv : v.HasTy t) (hkind : t.aggregateKind? = some kind) :
    ∃ members, v.spellOut = .ok (.aggregate kind members) ∧
      List.Forall₂ HasTy members t.memberTys := by
  cases v with
  | scalar s =>
    rw [hv.scalar_eq] at hkind
    cases s <;> cases hkind
  | void =>
    cases hv
    cases hkind
  | poison ty =>
    rw [hv.poison_eq] at hkind ⊢
    have hspell := spellOut_poison hkind
    exact ⟨_, hspell, (HasTy.spellOut (.poison ty) hspell).members.2⟩
  | aggregate k members =>
    obtain ⟨hk, hmembers⟩ := hv.members
    rw [hk] at hkind
    cases hkind
    exact ⟨members, rfl, hmembers⟩

/-- A value of a type has a part wherever the type has one, so paths can be checked against the type
alone. -/
theorem HasTy.exists_extractPath (hv : v.HasTy t) (hpath : t.memberAt? path = some m) :
    ∃ part, v.extractPath path = .ok part := by
  induction path generalizing v t with
  | nil => exact ⟨v, extractPath_nil v⟩
  | cons index path ih =>
    obtain ⟨u, hu, hrest⟩ := Option.bind_eq_some_iff.1 hpath
    obtain ⟨kind, hkind⟩ := aggregateKind?_of_member? hu
    obtain ⟨members, hspell, hmembers⟩ := hv.exists_spellOut hkind
    rw [Ty.member?_eq_memberTys] at hu
    obtain ⟨member, hmember, hty⟩ := exists_getElem?_of_forall₂ hmembers hu
    obtain ⟨part, hpart⟩ := ih hty hrest
    exact ⟨part, extractPath_cons_eq_ok_iff.2 ⟨kind, members, member, hspell, hmember, hpart⟩⟩

/-- A type has a part wherever a value of it has one: no value has parts that its type does not know
of. -/
theorem HasTy.exists_memberAt? (hv : v.HasTy t) (h : v.extractPath path = .ok part) :
    ∃ m, t.memberAt? path = some m := by
  induction path generalizing v t with
  | nil => exact ⟨t, rfl⟩
  | cons index path ih =>
    obtain ⟨kind, members, member, hspell, hmember, hrest⟩ := extractPath_cons_eq_ok_iff.1 h
    obtain ⟨-, hmembers⟩ := (hv.spellOut hspell).members
    obtain ⟨u, hu, hty⟩ := exists_getElem?_of_forall₂ hmembers.flip hmember
    obtain ⟨m, hm⟩ := ih hty hrest
    rw [← Ty.member?_eq_memberTys] at hu
    exact ⟨m, Option.bind_eq_some_iff.2 ⟨u, hu, hm⟩⟩

/-- What is to be shown of the parts of a value of a type: they are where the parts of the type are,
and of their types. -/
structure NavigatesAs (v : Value) (t : Ty) : Prop where
  /-- where the type has a part, the value has one of its type -/
  extractPath : ∀ path m, t.memberAt? path = some m →
    ∃ part, v.extractPath path = .ok part ∧ part.HasTy m
  /-- where the type has no part, the value has none -/
  extractPath_none : ∀ path, t.memberAt? path = none →
    ∃ fault, v.extractPath path = .error fault ∧ fault.kind = .structural
  /-- where the type has a part, that of the value can be replaced by any of its type -/
  insertPath : ∀ path m, t.memberAt? path = some m → ∀ e, HasTy e m →
    ∃ d, v.insertPath path e = .ok d ∧ d.HasTy t
  /-- where the type has no part, nothing can be put into the value -/
  insertPath_none : ∀ path, t.memberAt? path = none → ∀ e,
    ∃ fault, v.insertPath path e = .error fault ∧ fault.kind = .structural

/-- The parts of a value of a type are where the parts of the type are and of the types that it
tells, and where there are none reading and replacing are refused as malformed. Poison makes no
difference, at whatever point of the path it is met. -/
theorem HasTy.navigatesAs (hv : v.HasTy t) : v.NavigatesAs t where
  extractPath path m hpath := by
    obtain ⟨part, hpart⟩ := hv.exists_extractPath hpath
    exact ⟨part, hpart, hv.extractPath hpath hpart⟩
  extractPath_none path hpath := by
    cases h : v.extractPath path with
    | ok part =>
      obtain ⟨m, hm⟩ := hv.exists_memberAt? h
      cases hpath.symm.trans hm
    | error fault => exact ⟨fault, rfl, kind_of_extractPath_eq_error h⟩
  insertPath path m hpath e he := by
    obtain ⟨d, hd⟩ := exists_insertPath_iff.2 (hv.exists_extractPath hpath)
    exact ⟨d, hd, hv.insertPath hpath he hd⟩
  insertPath_none path hpath e := by
    cases h : v.insertPath path e with
    | ok d =>
      obtain ⟨part, hpart⟩ := exists_insertPath_iff.1 ⟨d, h⟩
      obtain ⟨m, hm⟩ := hv.exists_memberAt? hpart
      cases hpath.symm.trans hm
    | error fault => exact ⟨fault, rfl, kind_of_insertPath_eq_error h⟩

/-- The type of an array of two records behind a truth value. -/
def pairsTy : Ty := .record .packed [.bit, .array 2 (.record .struct [.int 8, .vector 2 .iptr])]

/-- A value of that type with poison in the place of the array. -/
def poisonPairs : Value :=
  .aggregate (.record .packed)
    [.bit true, .poison (.array 2 (.record .struct [.int 8, .vector 2 .iptr]))]

/-- Below the poison, reading and replacing go as far as its type does. -/
theorem navigatesAs_poisonPairs :
    poisonPairs.HasTy pairsTy ∧ poisonPairs.NavigatesAs pairsTy ∧
      poisonPairs.extractPath [1, 1, 1] = .ok (.poison (.vector 2 .iptr)) ∧
      poisonPairs.insertPath [1, 1, 1, 0] (.iptr 7) =
        .ok (.aggregate (.record .packed)
          [.bit true, .aggregate (.sequence .array)
            [.poison (.record .struct [.int 8, .vector 2 .iptr]),
              .aggregate (.record .struct) [.poison (.int 8), .vector [.iptr 7, .poison .iptr]]]]) ∧
      poisonPairs.extractPath [1, 2] =
        .error (.noMemberAt [2] (.array 2 (.record .struct [.int 8, .vector 2 .iptr]))) := by
  have hty : poisonPairs.HasTy pairsTy :=
    .aggregate rfl (.cons (.scalar _) (.cons (.poison _) .nil))
  exact ⟨hty, hty.navigatesAs, rfl, rfl, rfl⟩

end SymbolicBytes.Value
