import SymbolicBytes.Proofs.Classes
/-!
# Classes by first seed

What the classes of a list of items are, whatever the relation. They come out as if they were split
off round by round (`foldl_place_eq_rounds`): the first item and all later ones that are related to
it are a class, and the next round goes on with the items that are left. So classes and their seeds
ascend, and a class is kept clear of all items that are related to an earlier seed
(`pairwise_before`): a position is in the class of the first seed before it that its item is related
to, and where there is no such seed it is a seed itself (`groupsByFirstSeed`).
-/

namespace SymbolicBytes

variable {α : Type} {same : α → α → Bool}

/-! ## Round by round -/

namespace ItemClass

/-- The items that are not related to a seed. -/
def leftOver (same : α → α → Bool) (seed : α × Nat) (items : List (α × Nat)) : List (α × Nat) :=
  items.filter fun b => !same seed.1 b.1

theorem leftOver_sublist (seed : α × Nat) (items : List (α × Nat)) :
    (leftOver same seed items).Sublist items := List.filter_sublist

/-- The classes that are split off the items in rounds. Every round takes one item at least, so the
rounds come to an end. -/
def rounds (same : α → α → Bool) : List (α × Nat) → List (ItemClass α)
  | [] => []
  | seed :: rest =>
    ⟨seed, rest.filter fun b => same seed.1 b.1⟩ :: rounds same (leftOver same seed rest)
termination_by items => items.length
decreasing_by exact Nat.lt_succ_of_le (leftOver_sublist seed rest).length_le

/-- Placing the items one by one comes to the same as going over the items that are left once for
each class: the first of them is a seed, and takes with it all that it is related to. -/
theorem foldl_place_eq_rounds (same : α → α → Bool) (items : List (α × Nat)) :
    items.foldl (place same) [] = rounds same items := by
  induction items using rounds.induct same with
  | case1 => simp [rounds]
  | case2 seed rest ih =>
    rw [rounds, ← ih, List.foldl_cons, place, foldl_place_cons]
    rfl

theorem sublist_of_mem_rounds {items : List (α × Nat)} {c : ItemClass α}
    (hc : c ∈ rounds same items) : c.items.Sublist items := by
  induction items using rounds.induct same with
  | case1 => simp [rounds] at hc
  | case2 seed rest ih =>
    rw [rounds] at hc
    rcases List.mem_cons.1 hc with rfl | hc
    · exact .cons_cons _ List.filter_sublist
    · exact .cons _ ((ih hc).trans (leftOver_sublist seed rest))

/-- Whether the first class comes before the second: its seed does, and no item of the second is
related to that seed. -/
structure Before (same : α → α → Bool) (c d : ItemClass α) : Prop where
  /-- the seeds are in order -/
  seed_lt : c.seed.2 < d.seed.2
  /-- the items of the second class were left over by the first -/
  unrelated : ∀ b ∈ d.items, same c.seed.1 b.1 = false

/-- A round leaves nothing behind that is related to its seed, so no later class has such an item.
-/
theorem pairwise_before_rounds {items : List (α × Nat)}
    (h : items.Pairwise fun a b => a.2 < b.2) : (rounds same items).Pairwise (Before same) := by
  induction items using rounds.induct same with
  | case1 => simp [rounds]
  | case2 seed rest ih =>
    obtain ⟨hseed, hrest⟩ := List.pairwise_cons.1 h
    rw [rounds]
    refine List.pairwise_cons.2 ⟨?_, ih (hrest.sublist (leftOver_sublist seed rest))⟩
    -- the items of a later class are among those that the first round leaves
    intro d hd
    have hleft : ∀ b ∈ d.items, b ∈ rest ∧ (!same seed.1 b.1) = true := fun b hb =>
      List.mem_filter.1 ((sublist_of_mem_rounds hd).subset hb)
    refine ⟨hseed _ (hleft d.seed (List.mem_cons_self ..)).1, ?_⟩
    intro b hb
    exact Bool.not_eq_true' _ ▸ (hleft b hb).2

end ItemClass

open ItemClass (Before rounds)

/-- The classes of a list are those that are split off in rounds. -/
theorem itemClasses_eq_rounds (same : α → α → Bool) (items : List α) :
    itemClasses same items = rounds same items.zipIdx :=
  ItemClass.foldl_place_eq_rounds same items.zipIdx

theorem pairwise_zipIdx (items : List α) : items.zipIdx.Pairwise fun a b => a.2 < b.2 := by
  rw [← List.pairwise_map (f := Prod.snd) (R := (· < ·)), List.zipIdx_map_snd]
  exact List.pairwise_lt_range'

/-- The positions of a class ascend. -/
theorem pairwise_positions {items : List α} {c : ItemClass α} (hc : c ∈ itemClasses same items) :
    c.positions.Pairwise (· < ·) := by
  rw [itemClasses_eq_rounds] at hc
  exact List.pairwise_map.2 ((pairwise_zipIdx items).sublist (ItemClass.sublist_of_mem_rounds hc))

/-- Every class comes before those that follow it. This is more than that the seeds are apart: no
item at all of a later class is related to an earlier seed. -/
theorem pairwise_before (same : α → α → Bool) (items : List α) :
    (itemClasses same items).Pairwise (Before same) := by
  rw [itemClasses_eq_rounds]
  exact ItemClass.pairwise_before_rounds (pairwise_zipIdx items)

/-- Of two classes one comes before the other, in the order in which they come out. -/
theorem before_or_before {items : List α} {c d : ItemClass α} (hc : c ∈ itemClasses same items)
    (hd : d ∈ itemClasses same items) (hne : c ≠ d) : c.Before same d ∨ d.Before same c := by
  have hsymm : Std.Symm fun c d : ItemClass α => c.Before same d ∨ d.Before same c :=
    ⟨fun _ _ => Or.symm⟩
  have hpairs : (itemClasses same items).Pairwise fun c d => c.Before same d ∨ d.Before same c :=
    (pairwise_before same items).imp fun h => .inl h
  exact hpairs.forall hc hd hne

/-! ## The first seed -/

/-- Whether the item at the first position is related to the item at the second. -/
def RelatedAt (same : α → α → Bool) (items : List α) (i j : Nat) : Prop :=
  ∃ a b, items[i]? = some a ∧ items[j]? = some b ∧ same a b = true

section Seeds

variable {items : List α} {c d : ItemClass α} {i : Nat} {rest : List Nat}

theorem mem_positions_iff : i ∈ c.positions ↔ ∃ a, (a, i) ∈ c.items := by
  simp [ItemClass.positions]

/-- Every position is in a class. -/
theorem exists_mem_positions_iff :
    (∃ c ∈ itemClasses same items, i ∈ c.positions) ↔ i < items.length := by
  rw [← List.mem_range, ← (classes_perm same items).mem_iff, classes, List.mem_flatten]
  simp only [List.mem_map, exists_exists_and_eq_and]

theorem cons_mem_classes_iff :
    i :: rest ∈ classes same items ↔
      ∃ c ∈ itemClasses same items, c.seed.2 = i ∧ c.others.map (·.2) = rest := by
  simp [classes, ItemClass.positions, ItemClass.items]

/-- What joins a class comes after its seed in the list and is related to it. -/
theorem relatedAt_of_mem_others (hc : c ∈ itemClasses same items) (hi : i ∈ c.others.map (·.2)) :
    c.seed.2 < i ∧ RelatedAt same items c.seed.2 i := by
  obtain ⟨b, hb, rfl⟩ := List.mem_map.1 hi
  refine ⟨?_, c.seed.1, b.1, mem_items_iff.1 ⟨c, hc, List.mem_cons_self ..⟩,
    mem_items_iff.1 ⟨c, hc, List.mem_cons_of_mem _ hb⟩, same_of_mem_others hc hb⟩
  exact (List.pairwise_cons.1 (pairwise_positions hc)).1 _ (List.mem_map_of_mem hb)

/-- The items of a later class are not related to the seed of an earlier one. -/
theorem ItemClass.Before.not_relatedAt (h : c.Before same d) (hc : c ∈ itemClasses same items)
    (hd : d ∈ itemClasses same items) (hi : i ∈ d.positions) :
    ¬ RelatedAt same items c.seed.2 i := by
  rintro ⟨a, b, ha, hb, hab⟩
  obtain ⟨b', hb'⟩ := mem_positions_iff.1 hi
  have hseed : items[c.seed.2]? = some c.seed.1 :=
    mem_items_iff.1 ⟨c, hc, List.mem_cons_self ..⟩
  obtain rfl := Option.some.inj (ha.symm.trans hseed)
  obtain rfl := Option.some.inj (hb.symm.trans (mem_items_iff.1 ⟨d, hd, hb'⟩))
  exact absurd hab (Bool.eq_false_iff.1 (h.unrelated _ hb'))

/-- A position is in the class of the first seed before it that its item is related to. A related
item before the seed does not count, nor one that is no seed. -/
theorem mem_others_iff (hc : c ∈ itemClasses same items) :
    i ∈ c.others.map (·.2) ↔ c.seed.2 < i ∧ RelatedAt same items c.seed.2 i ∧
      ∀ d ∈ itemClasses same items, d.seed.2 < c.seed.2 → ¬ RelatedAt same items d.seed.2 i := by
  constructor
  · intro hi
    obtain ⟨hlt, hrelated⟩ := relatedAt_of_mem_others hc hi
    refine ⟨hlt, hrelated, ?_⟩
    intro d hd hdc
    have hne : d ≠ c := by
      rintro rfl
      exact Nat.lt_irrefl _ hdc
    rcases before_or_before hd hc hne with h | h
    · exact h.not_relatedAt hd hc (List.mem_cons_of_mem _ hi)
    · exact absurd h.seed_lt (Nat.lt_asymm hdc)
  · rintro ⟨hlt, hrelated, hfirst⟩
    obtain ⟨a, b, -, hb, -⟩ := id hrelated
    obtain ⟨d, hd, hi⟩ := exists_mem_positions_iff.2 (List.getElem?_eq_some_iff.1 hb).1
    have hmem : i = d.seed.2 ∨ i ∈ d.others.map (·.2) := List.mem_cons.1 hi
    by_cases hcd : c = d
    · subst hcd
      exact hmem.resolve_left (Nat.ne_of_gt hlt)
    · rcases before_or_before hc hd hcd with h | h
      · exact absurd hrelated (h.not_relatedAt hc hd hi)
      · -- the class that the position is in comes before this one
        rcases hmem with rfl | hother
        · exact absurd h.seed_lt (Nat.lt_asymm hlt)
        · exact absurd (relatedAt_of_mem_others hd hother).2 (hfirst d hd h.seed_lt)

/-- A position whose item is not related to any seed before it is a seed, since there is no class
for it to join. -/
theorem exists_seed_iff :
    (∃ c ∈ itemClasses same items, c.seed.2 = i) ↔ i < items.length ∧
      ∀ d ∈ itemClasses same items, d.seed.2 < i → ¬ RelatedAt same items d.seed.2 i := by
  constructor
  · rintro ⟨c, hc, rfl⟩
    have hself : c.seed.2 ∈ c.positions := List.mem_cons_self ..
    refine ⟨exists_mem_positions_iff.1 ⟨c, hc, hself⟩, ?_⟩
    intro d hd hdc
    have hne : d ≠ c := by
      rintro rfl
      exact Nat.lt_irrefl _ hdc
    rcases before_or_before hd hc hne with h | h
    · exact h.not_relatedAt hd hc hself
    · exact absurd h.seed_lt (Nat.lt_asymm hdc)
  · rintro ⟨hlt, hnone⟩
    obtain ⟨c, hc, hi⟩ : ∃ c ∈ itemClasses same items, i ∈ c.positions :=
      exists_mem_positions_iff.2 hlt
    rcases List.mem_cons.1 hi with rfl | hother
    · exact ⟨c, hc, rfl⟩
    · obtain ⟨hlt, hrelated⟩ := relatedAt_of_mem_others hc hother
      exact absurd hrelated (hnone c hc hlt)

end Seeds

/-- Whether the groups of positions are the classes of the items by first seed. -/
structure GroupsByFirstSeed (same : α → α → Bool) (items : List α) (groups : List (List Nat)) :
    Prop where
  /-- the classes are split off in rounds -/
  rounds : groups = (rounds same items.zipIdx).map ItemClass.positions
  /-- every position is in one class, and there once -/
  once : groups.flatten.Perm (List.range items.length)
  /-- a class begins with its seed and ascends -/
  ascending : ∀ c ∈ groups, c ≠ [] ∧ c.Pairwise (· < ·)
  /-- the seeds ascend -/
  seeds : groups.Pairwise fun c d => ∀ s ∈ c.head?, ∀ t ∈ d.head?, s < t
  /-- behind a seed are the later positions with an item that is related to it and to no earlier
  seed -/
  joined : ∀ s rest, s :: rest ∈ groups → ∀ i, i ∈ rest ↔ s < i ∧ RelatedAt same items s i ∧
    ∀ t more, t :: more ∈ groups → t < s → ¬ RelatedAt same items t i
  /-- the seeds are the positions with an item that is related to no seed before it -/
  seeded : ∀ i, (∃ rest, i :: rest ∈ groups) ↔ i < items.length ∧
    ∀ s rest, s :: rest ∈ groups → s < i → ¬ RelatedAt same items s i
  /-- under an equivalence, positions share a class exactly if their items are related -/
  shared : (Equivalence fun a b => same a b = true) → ∀ i j,
    (∃ c ∈ groups, i ∈ c ∧ j ∈ c) ↔ RelatedAt same items i j

/-- What is asked of all seeds may be asked of all classes. -/
theorem forall_seed_iff {items : List α} {p : Nat → Prop} :
    (∀ s rest, s :: rest ∈ classes same items → p s) ↔
      ∀ c ∈ itemClasses same items, p c.seed.2 := by
  constructor
  · intro h c hc
    exact h _ _ (cons_mem_classes_iff.2 ⟨c, hc, rfl, rfl⟩)
  · intro h s rest hs
    obtain ⟨c, hc, rfl, -⟩ := cons_mem_classes_iff.1 hs
    exact h c hc

theorem shares_class_iff (hsame : Equivalence fun a b => same a b = true) {items : List α}
    {i j : Nat} :
    (∃ c ∈ classes same items, i ∈ c ∧ j ∈ c) ↔ RelatedAt same items i j := by
  constructor
  · rintro ⟨_, hpositions, hi, hj⟩
    obtain ⟨c, hc, rfl⟩ := List.mem_map.1 hpositions
    obtain ⟨a, ha⟩ := mem_positions_iff.1 hi
    obtain ⟨b, hb⟩ := mem_positions_iff.1 hj
    have hget : items[i]? = some a := mem_items_iff.1 ⟨c, hc, ha⟩
    have hget' : items[j]? = some b := mem_items_iff.1 ⟨c, hc, hb⟩
    have hseed := (mem_items_iff_same hsame hc hget).1 ha
    have hseed' := (mem_items_iff_same hsame hc hget').1 hb
    exact ⟨a, b, hget, hget', hsame.trans (hsame.symm hseed) hseed'⟩
  · rintro ⟨a, b, ha, hb, hab⟩
    obtain ⟨c, hc, hi⟩ := mem_items_iff.2 ha
    have hseed := (mem_items_iff_same hsame hc ha).1 hi
    have hj := (mem_items_iff_same hsame hc hb).2 (hsame.trans hseed hab)
    exact ⟨c.positions, List.mem_map_of_mem hc, mem_positions_iff.2 ⟨a, hi⟩,
      mem_positions_iff.2 ⟨b, hj⟩⟩

/-- The classes of a list of items are the classes by first seed, under any relation: nothing is
asked of it, so this also says what becomes of bytes whose comparison is cut off at the depth limit.
-/
theorem groupsByFirstSeed (same : α → α → Bool) (items : List α) :
    GroupsByFirstSeed same items (classes same items) where
  rounds := by rw [classes, itemClasses_eq_rounds]
  once := classes_perm same items
  ascending group hgroup := by
    obtain ⟨c, hc, rfl⟩ := List.mem_map.1 hgroup
    exact ⟨List.cons_ne_nil _ _, pairwise_positions hc⟩
  seeds := by
    refine List.pairwise_map.2 ((pairwise_before same items).imp ?_)
    rintro c d h _ ⟨⟩ _ ⟨⟩
    exact h.seed_lt
  joined s rest hs i := by
    obtain ⟨c, hc, rfl, rfl⟩ := cons_mem_classes_iff.1 hs
    rw [mem_others_iff hc, forall_seed_iff]
  seeded i := by
    rw [forall_seed_iff, ← exists_seed_iff]
    simp only [cons_mem_classes_iff]
    constructor
    · rintro ⟨_, c, hc, rfl, -⟩
      exact ⟨c, hc, rfl⟩
    · rintro ⟨c, hc, rfl⟩
      exact ⟨_, c, hc, rfl, rfl⟩
  shared hsame _ _ := shares_class_iff hsame

/-- Numbers that are one apart at most are related, which is no equivalence: the numbers at 1 and 2
are related to that at 0, and the number at 4 is not, though it is related to that at 2. -/
example : classes (fun a b : Nat => a ≤ b + 1 && b ≤ a + 1) [1, 0, 2, 7, 3, 6] =
    [[0, 1, 2], [3, 5], [4]] := by decide

end SymbolicBytes
