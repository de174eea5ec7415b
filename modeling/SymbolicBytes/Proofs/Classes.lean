import Mathlib.Data.List.Forall2
import Mathlib.Data.List.Pairwise
import SymbolicBytes.Partition
import SymbolicBytes.Proofs.Lists
/-!
# Classes of items

Facts about `itemClasses` that hold for every relation. The classes together are all the items with
their positions, each once (`itemClasses_perm`), the items of a class are related to its seed
(`same_of_mem_others`), and the seeds are not related to each other (`pairwise_itemClasses`). Items
that are pairwise related alike, on two lists, are grouped alike (`itemClasses_congr`), and so are
those of one list under two relations that are the same on it (`classes_congr`).
-/

namespace SymbolicBytes

variable {α β : Type} {same : α → α → Bool}

namespace ItemClass

theorem place_perm (same : α → α → Bool) (cs : List (ItemClass α)) (item : α × Nat) :
    ((place same cs item).flatMap items).Perm (cs.flatMap items ++ [item]) := by
  induction cs with
  | nil => exact .refl _
  | cons c cs ih =>
    simp only [place]
    split
    · -- the item joins this class, ahead of the classes that follow
      simp only [List.flatMap_cons, items, List.cons_append, List.append_assoc]
      exact .cons _ (.append_left _ (List.perm_append_singleton ..).symm)
    · simp only [List.flatMap_cons, List.append_assoc]
      exact .append_left _ ih

/-- All other items of the class are related to its seed. -/
def Joined (same : α → α → Bool) (c : ItemClass α) : Prop :=
  ∀ b ∈ c.others, same c.seed.1 b.1 = true

theorem joined_place {cs : List (ItemClass α)} (h : ∀ c ∈ cs, c.Joined same) (item : α × Nat) :
    ∀ c ∈ place same cs item, c.Joined same := by
  induction cs with
  | nil =>
    intro c hc b hb
    obtain rfl := List.mem_singleton.1 hc
    cases hb
  | cons d cs ih =>
    have hd := h d (List.mem_cons_self ..)
    have hcs : ∀ c ∈ cs, c.Joined same := fun c hc => h c (List.mem_cons_of_mem _ hc)
    simp only [place]
    split
    · rename_i hsame
      intro c hc
      rcases List.mem_cons.1 hc with rfl | hc
      · -- the class that the item joins: its seed is as before
        intro b hb
        rcases List.mem_append.1 hb with hb | hb
        · exact hd b hb
        · obtain rfl := List.mem_singleton.1 hb
          exact hsame
      · exact hcs c hc
    · intro c hc
      rcases List.mem_cons.1 hc with rfl | hc
      · exact hd
      · exact ih hcs c hc

end ItemClass

/-! ## The classes are the items -/

/-- The last item of a list is placed last, so the classes of a list can be followed by induction
from its end. -/
theorem itemClasses_concat (same : α → α → Bool) (items : List α) (a : α) :
    itemClasses same (items ++ [a]) =
      ItemClass.place same (itemClasses same items) (a, items.length) := by
  simp [itemClasses, List.zipIdx_append]

theorem foldl_place_perm (items : List (α × Nat)) (cs : List (ItemClass α)) :
    ((items.foldl (ItemClass.place same) cs).flatMap ItemClass.items).Perm
      (cs.flatMap ItemClass.items ++ items) := by
  induction items generalizing cs with
  | nil => simp
  | cons item items ih =>
    have hplace := (ItemClass.place_perm same cs item).append_right items
    rw [List.append_assoc] at hplace
    exact (ih _).trans hplace

/-- The classes together are all the items with their positions: none is lost and none is in two of
them, whatever the relation. -/
theorem itemClasses_perm (same : α → α → Bool) (items : List α) :
    ((itemClasses same items).flatMap ItemClass.items).Perm items.zipIdx :=
  foldl_place_perm items.zipIdx []

theorem foldl_place_joined (items : List (α × Nat)) {cs : List (ItemClass α)}
    (h : ∀ c ∈ cs, c.Joined same) :
    ∀ c ∈ items.foldl (ItemClass.place same) cs, c.Joined same := by
  induction items generalizing cs with
  | nil => exact h
  | cons item items ih => exact ih (ItemClass.joined_place h item)

/-- The items of a class are related to its seed. They need not be related to each other, since the
relation need not be transitive. -/
theorem same_of_mem_others {items : List α} {c : ItemClass α} (hc : c ∈ itemClasses same items)
    {b : α × Nat} (hb : b ∈ c.others) : same c.seed.1 b.1 = true :=
  foldl_place_joined items.zipIdx (fun _ h => absurd h List.not_mem_nil) c hc b hb

/-- The items of the classes are the items at their positions. -/
theorem mem_items_iff {items : List α} {a : α} {i : Nat} :
    (∃ c ∈ itemClasses same items, (a, i) ∈ c.items) ↔ items[i]? = some a :=
  List.mem_flatMap.symm.trans
    ((itemClasses_perm same items).mem_iff.trans List.mk_mem_zipIdx_iff_getElem?)

theorem mem_of_mem_items {items : List α} {c : ItemClass α} (hc : c ∈ itemClasses same items)
    {item : α × Nat} (hitem : item ∈ c.items) : item.1 ∈ items :=
  List.mem_of_getElem? (mem_items_iff.1 ⟨c, hc, hitem⟩)

/-- The classes have every position once, so that what is done class by class is done once for every
item. -/
theorem classes_perm (same : α → α → Bool) (items : List α) :
    (classes same items).flatten.Perm (List.range items.length) := by
  have h := (itemClasses_perm same items).map (·.2)
  rw [List.map_flatMap, List.zipIdx_map_snd, ← List.range_eq_range'] at h
  exact h

/-! ## Seeds -/

/-- Whether the seed of the second class was kept out of the first. -/
def ItemClass.Apart (same : α → α → Bool) (c d : ItemClass α) : Prop :=
  same c.seed.1 d.seed.1 = false

namespace ItemClass

/-- Placing an item changes no seed, and adds the item at most. -/
theorem seed_of_mem_place {cs : List (ItemClass α)} {item : α × Nat} {d : ItemClass α}
    (h : d ∈ place same cs item) : (∃ c ∈ cs, d.seed = c.seed) ∨ d.seed = item := by
  induction cs with
  | nil =>
    obtain rfl := List.mem_singleton.1 h
    exact .inr rfl
  | cons c cs ih =>
    simp only [place] at h
    split at h
    · rcases List.mem_cons.1 h with rfl | h
      · exact .inl ⟨c, List.mem_cons_self .., rfl⟩
      · exact .inl ⟨d, List.mem_cons_of_mem _ h, rfl⟩
    · rcases List.mem_cons.1 h with rfl | h
      · exact .inl ⟨d, List.mem_cons_self .., rfl⟩
      · apply (ih h).imp_left
        rintro ⟨c', hc', hseed⟩
        exact ⟨c', List.mem_cons_of_mem _ hc', hseed⟩

theorem pairwise_place {cs : List (ItemClass α)} (h : cs.Pairwise (Apart same)) (item : α × Nat) :
    (place same cs item).Pairwise (Apart same) := by
  induction cs with
  | nil => exact List.pairwise_singleton ..
  | cons c cs ih =>
    obtain ⟨hc, hcs⟩ := List.pairwise_cons.1 h
    simp only [place]
    split
    · exact List.pairwise_cons.2 ⟨hc, hcs⟩
    · -- a later class may have the item as its seed, and the item was kept out of this one
      rename_i hsame
      refine List.pairwise_cons.2 ⟨?_, ih hcs⟩
      intro d hd
      rcases seed_of_mem_place hd with ⟨c', hc', hseed⟩ | hseed
      · rw [Apart, hseed]
        exact hc c' hc'
      · rw [Apart, hseed]
        exact Bool.eq_false_iff.2 hsame

end ItemClass

theorem foldl_place_pairwise (items : List (α × Nat)) {cs : List (ItemClass α)}
    (h : cs.Pairwise (ItemClass.Apart same)) :
    (items.foldl (ItemClass.place same) cs).Pairwise (ItemClass.Apart same) := by
  induction items generalizing cs with
  | nil => exact h
  | cons item items ih => exact ih (ItemClass.pairwise_place h item)

/-- No class is seeded by an item that is related to the seed of an earlier one, since it would have
joined that. -/
theorem pairwise_itemClasses (same : α → α → Bool) (items : List α) :
    (itemClasses same items).Pairwise (ItemClass.Apart same) :=
  foldl_place_pairwise items.zipIdx .nil

/-- Under an equivalence, the class of a seed has all items that are related to it, and the classes
are its classes. -/
theorem mem_items_iff_same (hsame : Equivalence fun a b => same a b = true) {items : List α}
    {c : ItemClass α} (hc : c ∈ itemClasses same items) {a : α} {i : Nat}
    (ha : items[i]? = some a) : (a, i) ∈ c.items ↔ same c.seed.1 a = true := by
  have hitem : ∀ c ∈ itemClasses same items, (a, i) ∈ c.items → same c.seed.1 a = true := by
    intro c hc hmem
    rcases List.mem_cons.1 hmem with heq | hother
    · rw [← heq]
      exact hsame.refl a
    · exact same_of_mem_others hc hother
  refine ⟨hitem c hc, ?_⟩
  intro hseed
  obtain ⟨d, hd, hmem⟩ := mem_items_iff.2 ha
  by_cases heq : c = d
  · exact heq ▸ hmem
  · -- two classes whose seeds are both related to the item have related seeds
    have hsymm : Std.Symm (ItemClass.Apart same) :=
      ⟨fun c d hcd => Bool.eq_false_iff.2 fun hdc => Bool.eq_false_iff.1 hcd (hsame.symm hdc)⟩
    have happart := (pairwise_itemClasses same items).forall hc hd heq
    have hrelated := hsame.trans hseed (hsame.symm (hitem d hd hmem))
    exact absurd hrelated (Bool.eq_false_iff.1 happart)

/-! ## One class -/

/-- The items that are related to the seed of the first class join it, and the others are placed in
the classes behind it. So the first class can be split off from all that comes after. -/
theorem ItemClass.foldl_place_cons (items : List (α × Nat)) (c : ItemClass α)
    (cs : List (ItemClass α)) :
    items.foldl (place same) (c :: cs) =
      { c with others := c.others ++ items.filter fun b => same c.seed.1 b.1 } ::
        (items.filter fun b => !same c.seed.1 b.1).foldl (place same) cs := by
  induction items generalizing c cs with
  | nil => simp
  | cons item items ih =>
    cases hitem : same c.seed.1 item.1 <;> simp [place, hitem, ih]

/-- Items that all are related to the first are one class. -/
theorem itemClasses_eq_singleton {first : α} {items : List α}
    (h : ∀ b ∈ items, same first b = true) :
    itemClasses same (first :: items) = [⟨(first, 0), items.zipIdx 1⟩] := by
  have hrelated : ∀ b ∈ items.zipIdx 1, same first b.1 = true := fun b hb =>
    h b.1 (List.fst_mem_of_mem_zipIdx hb)
  have hjoin : (items.zipIdx 1).filter (fun b => same first b.1) = items.zipIdx 1 :=
    List.filter_eq_self.2 hrelated
  have hleft : (items.zipIdx 1).filter (fun b => !same first b.1) = [] :=
    List.filter_eq_nil_iff.2 fun b hb => by simp [hrelated b hb]
  rw [itemClasses, List.zipIdx_cons, List.foldl_cons, ItemClass.place, ItemClass.foldl_place_cons]
  simp only [Nat.zero_add, hjoin, hleft, List.nil_append, List.foldl_nil]

/-! ## Items that are related alike -/

/-- Whether two classes have corresponding items at the same positions. -/
def ItemClass.Corresponds (R : α → β → Prop) (c : ItemClass α) (d : ItemClass β) : Prop :=
  List.Forall₂ (fun a b => R a.1 b.1 ∧ a.2 = b.2) c.items d.items

namespace ItemClass

variable {same' : β → β → Bool} {R : α → β → Prop}

theorem corresponds_place
    (hsame : ∀ a b, R a b → ∀ a' b', R a' b' → same a a' = same' b b')
    {cs : List (ItemClass α)} {ds : List (ItemClass β)} (h : List.Forall₂ (Corresponds R) cs ds)
    {a : α × Nat} {b : β × Nat} (hab : R a.1 b.1 ∧ a.2 = b.2) :
    List.Forall₂ (Corresponds R) (place same cs a) (place same' ds b) := by
  induction h with
  | nil => exact .cons (.cons hab .nil) .nil
  | @cons c d cs ds hcd hrest ih =>
    obtain ⟨hseed, hothers⟩ := List.forall₂_cons.1 hcd
    simp only [place, hsame _ _ hseed.1 _ _ hab.1]
    split
    · exact .cons (.cons hseed (List.rel_append hothers (.cons hab .nil))) hrest
    · exact .cons hcd ih

end ItemClass

/-- Items that are related alike are grouped alike, position by position. The two lists may be of
different things: bytes before and after they are given other ids, or values that are decided alike.
-/
theorem itemClasses_congr {same' : β → β → Bool} {R : α → β → Prop}
    (hsame : ∀ a b, R a b → ∀ a' b', R a' b' → same a a' = same' b b')
    {as : List α} {bs : List β} (h : List.Forall₂ R as bs) :
    List.Forall₂ (ItemClass.Corresponds R) (itemClasses same as) (itemClasses same' bs) := by
  -- over any classes so far, so that the induction can place the first items
  suffices hfold : ∀ (start : Nat) (cs : List (ItemClass α)) (ds : List (ItemClass β)),
      List.Forall₂ (ItemClass.Corresponds R) cs ds →
      List.Forall₂ (ItemClass.Corresponds R) ((as.zipIdx start).foldl (ItemClass.place same) cs)
        ((bs.zipIdx start).foldl (ItemClass.place same') ds) from hfold 0 [] [] .nil
  induction h with
  | nil =>
    intro _ _ _ hcs
    exact hcs
  | cons hab _ ih =>
    intro start cs ds hcs
    exact ih (start + 1) _ _ (ItemClass.corresponds_place hsame hcs ⟨hab, rfl⟩)

/-- Relations that are the same between the items of a list group them alike; what they are
elsewhere does not matter. -/
theorem classes_congr {same' : α → α → Bool} {items : List α}
    (h : ∀ a ∈ items, ∀ b ∈ items, same a b = same' a b) :
    classes same items = classes same' items := by
  have hitems : List.Forall₂ (fun a b => a ∈ items ∧ a = b) items items :=
    List.forall₂_same.2 fun _ ha => ⟨ha, rfl⟩
  refine map_eq_of_forall₂ ((itemClasses_congr ?_ hitems).imp ?_)
  · rintro a _ ⟨ha, rfl⟩ b _ ⟨hb, rfl⟩
    exact h a ha b hb
  · intro c d hcd
    exact map_eq_of_forall₂ (hcd.imp fun _ _ hab => hab.2)

end SymbolicBytes
