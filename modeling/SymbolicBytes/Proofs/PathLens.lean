import SymbolicBytes.Proofs.Paths
/-!
# Replacing parts as a lens

Reading a part and replacing it are the two halves of a lens, at every path of every value: what was
put in is read again, and of two replacements the second counts. Only putting back what was read
needs care. It spells out the poison that it comes through, so the value is the same again if there
is none above the part.

Two paths *fork* if neither is a prefix of the other (`fork_iff`). What happens at one of them is
not noticed at the other. All laws are steps from a value to a member of it, by the equations of
`Proofs/Paths`, and hold for the members by the laws of `List.set`; `lens` lists them.
-/

namespace SymbolicBytes.Value

variable {v d e f w part : Value} {kind : AggregateKind} {members : List Value} {index : Nat}
  {path p q : List Nat}

/-! ## One path -/

/-- A member that is replaced is there to be replaced again. -/
theorem getElem?_set_of_eq_some (h : members[index]? = some part) (e : Value) :
    (members.set index e)[index]? = some e := by
  rw [List.getElem?_set_self', h]
  rfl

/-- What is put at the end of a path is read there, also where there was poison before. -/
theorem extractPath_of_insertPath (h : v.insertPath path e = .ok d) :
    d.extractPath path = .ok e := by
  induction path generalizing v d with
  | nil =>
    rw [insertPath_nil] at h
    cases h
    exact extractPath_nil e
  | cons index path ih =>
    obtain ⟨kind, members, member, updated, -, hmember, hupdated, rfl⟩ := insertPath_inv h
    exact extractPath_cons_eq_ok_iff.2
      ⟨kind, _, updated, rfl, getElem?_set_of_eq_some hmember updated, ih hupdated⟩

/-- Of two replacements at one path, the second counts. The first has spelled out what poison there
was on the way, so the second finds the same members. -/
theorem insertPath_of_insertPath (h : v.insertPath path e = .ok d) (f : Value) :
    d.insertPath path f = v.insertPath path f := by
  induction path generalizing v d with
  | nil => rw [insertPath_nil, insertPath_nil]
  | cons index path ih =>
    obtain ⟨kind, members, member, updated, hspell, hmember, hupdated, rfl⟩ := insertPath_inv h
    rw [insertPath_cons hspell hmember,
      insertPath_cons rfl (getElem?_set_of_eq_some hmember updated), ih hupdated]
    simp only [List.set_set]

/-- Whether the path to a part comes through no poison before it reaches the part. -/
def NoPoisonAbove (v : Value) (path : List Nat) : Prop :=
  ∀ before rest, path = before ++ rest → rest ≠ [] →
    ∀ ty, v.extractPath before ≠ .ok (.poison ty)

/-- A part that is put back where it was changes nothing, unless poison had to be spelled out. An
aggregate of poison is not the poison of its type, though both are read alike. -/
theorem insertPath_of_extractPath (h : v.extractPath path = .ok part)
    (hfree : v.NoPoisonAbove path) :
    v.insertPath path part = .ok v := by
  induction path generalizing v with
  | nil =>
    rw [extractPath_nil] at h
    cases h
    exact insertPath_nil _ _
  | cons index path ih =>
    rcases extractPath_inv h with ⟨ty, _, rfl, -, -⟩ | ⟨kind, members, member, rfl, hmember, hrest⟩
    · exact absurd (extractPath_nil _) (hfree [] _ rfl (List.cons_ne_nil _ _) ty)
    · -- what is above the part in the member is above it in the whole
      have hfree' : member.NoPoisonAbove path := by
        rintro before rest rfl hrest ty hty
        apply hfree (index :: before) rest rfl hrest ty
        exact extractPath_cons_eq_ok_iff.2 ⟨kind, members, member, rfl, hmember, hty⟩
      obtain ⟨hlt, hget⟩ := List.getElem?_eq_some_iff.1 hmember
      rw [insertPath_cons rfl hmember, ih hrest hfree', Outcome.map_ok, ← hget,
        List.set_getElem_self]

/-! ## Two paths -/

/-- Paths that lead into different members, at once or after a common beginning. -/
inductive Fork : List Nat → List Nat → Prop where
  /-- they differ in the first member -/
  | here {i j : Nat} {p q : List Nat} (h : i ≠ j) : Fork (i :: p) (j :: q)
  /-- they lead into the same member and fork there -/
  | later (i : Nat) {p q : List Nat} (h : Fork p q) : Fork (i :: p) (i :: q)

theorem Fork.symm (h : Fork p q) : Fork q p := by
  induction h with
  | here h => exact .here h.symm
  | later i _ ih => exact .later i ih

/-- Two paths fork if neither is a prefix of the other. -/
theorem fork_iff : Fork p q ↔ ¬ p <+: q ∧ ¬ q <+: p := by
  constructor
  · intro h
    induction h with
    | here h => simp [h, h.symm]
    | later i _ ih => simpa using ih
  · rintro ⟨hpq, hqp⟩
    induction p generalizing q with
    | nil => exact absurd List.nil_prefix hpq
    | cons i p ih =>
      cases q with
      | nil => exact absurd List.nil_prefix hqp
      | cons j q =>
        by_cases hij : i = j
        · subst hij
          exact .later i (ih (by simpa using hpq) (by simpa using hqp))
        · exact .here hij

/-- A replacement is not noticed on another path, whether that leads to a part or not. -/
theorem extractPath_of_fork (hfork : Fork p q) (h : v.insertPath p e = .ok d) :
    d.extractPath q = .ok part ↔ v.extractPath q = .ok part := by
  induction hfork generalizing v d with
  | here hij =>
    obtain ⟨kind, members, member, updated, hspell, -, -, rfl⟩ := insertPath_inv h
    rw [extractPath_cons_of_spellOut hspell, extractPath_cons_of_spellOut rfl,
      List.getElem?_set_ne hij]
  | later i _ ih =>
    obtain ⟨kind, members, member, updated, hspell, hmember, hupdated, rfl⟩ := insertPath_inv h
    rw [extractPath_cons_of_spellOut hspell, extractPath_cons_of_spellOut rfl,
      getElem?_set_of_eq_some hmember updated, hmember]
    simp only [Option.some.injEq, exists_eq_left', ih hupdated]

/-- Two replacements on paths that fork can be made in the other order. The second is possible after
the first only if it was before. -/
theorem insertPath_swap (hfork : Fork p q)
    (h : (v.insertPath p e >>= fun d => d.insertPath q f) = .ok w) :
    (v.insertPath q f >>= fun d => d.insertPath p e) = .ok w := by
  obtain ⟨d, hd, hw⟩ := Outcome.bind_eq_ok.1 h
  clear h
  induction hfork generalizing v d w with
  | @here i j p q hij =>
    obtain ⟨kind, members, member, updated, hspell, hmember, hupdated, rfl⟩ := insertPath_inv hd
    obtain ⟨_, _, other, updated', heq, hother, hupdated', rfl⟩ := insertPath_inv hw
    cases heq
    rw [List.getElem?_set_ne hij] at hother
    rw [← List.getElem?_set_ne hij.symm] at hmember
    rw [insertPath_cons hspell hother, hupdated', Outcome.map_ok, Outcome.ok_bind,
      insertPath_cons rfl hmember, hupdated, Outcome.map_ok, List.set_comm _ _ hij]
  | later i _ ih =>
    obtain ⟨kind, members, member, updated, hspell, hmember, hupdated, rfl⟩ := insertPath_inv hd
    obtain ⟨_, _, _, twice, heq, hmember', htwice, rfl⟩ := insertPath_inv hw
    cases heq
    rw [getElem?_set_of_eq_some hmember updated] at hmember'
    cases hmember'
    obtain ⟨first, hfirst, hboth⟩ := Outcome.bind_eq_ok.1 (ih _ hupdated htwice)
    rw [insertPath_cons hspell hmember, hfirst, Outcome.map_ok, Outcome.ok_bind,
      insertPath_cons rfl (getElem?_set_of_eq_some hmember first), hboth, Outcome.map_ok,
      List.set_set, List.set_set]

/-! ## What there is to know -/

/-- What is to be shown of reading and replacing the parts of a value. -/
structure Lens (v : Value) : Prop where
  /-- there is a part to replace where there is one to read -/
  exists_iff : ∀ p e, (∃ d, v.insertPath p e = .ok d) ↔ ∃ part, v.extractPath p = .ok part
  /-- what is put in is read again -/
  extract_insert : ∀ p e d, v.insertPath p e = .ok d → d.extractPath p = .ok e
  /-- of two replacements the second counts -/
  insert_insert : ∀ p e f d, v.insertPath p e = .ok d → d.insertPath p f = v.insertPath p f
  /-- putting back what was read changes nothing, if there is no poison above it -/
  insert_extract : ∀ p part, v.extractPath p = .ok part → v.NoPoisonAbove p →
    v.insertPath p part = .ok v
  /-- a replacement changes no part elsewhere, and neither adds nor removes one -/
  extract_elsewhere : ∀ p q e d, ¬ p <+: q → ¬ q <+: p → v.insertPath p e = .ok d →
    ∀ part, d.extractPath q = .ok part ↔ v.extractPath q = .ok part
  /-- replacements elsewhere can be made in any order -/
  insert_elsewhere : ∀ p q e f, ¬ p <+: q → ¬ q <+: p →
    ∀ w, (v.insertPath p e >>= fun d => d.insertPath q f) = .ok w ↔
      (v.insertPath q f >>= fun d => d.insertPath p e) = .ok w

/-- Reading and replacing parts keep the laws of a lens at every value, whether it has a type or
not. -/
theorem lens (v : Value) : v.Lens where
  exists_iff _ _ := exists_insertPath_iff
  extract_insert _ _ _ h := extractPath_of_insertPath h
  insert_insert _ _ f _ h := insertPath_of_insertPath h f
  insert_extract _ _ h hfree := insertPath_of_extractPath h hfree
  extract_elsewhere _ _ _ _ hpq hqp h _ := extractPath_of_fork (fork_iff.2 ⟨hpq, hqp⟩) h
  insert_elsewhere _ _ _ _ hpq hqp _ :=
    have hfork := fork_iff.2 ⟨hpq, hqp⟩
    ⟨insertPath_swap hfork, insertPath_swap hfork.symm⟩

/-- Poison above the part stays spelled out when the part is put back. -/
example : (poison (.record .struct [.bit, .iptr])).insertPath [1] (.poison .iptr) =
    .ok (.aggregate (.record .struct) [.poison .bit, .poison .iptr]) := rfl

end SymbolicBytes.Value
