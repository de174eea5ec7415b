import Mathlib.Data.List.Forall2
/-!
# Lists side by side

Facts about `List.Forall₂` for proofs that walk along two lists at once.
-/

namespace SymbolicBytes

/-- What follows from the relation of items of the two lists follows all along the lists. That the
items are in the lists is kept at hand, for what is only known of those. -/
theorem forall₂_of_mem {α β : Type} {R S : α → β → Prop} {as : List α} {bs : List β}
    (h : List.Forall₂ R as bs) (hRS : ∀ a ∈ as, ∀ b ∈ bs, R a b → S a b) :
    List.Forall₂ S as bs := by
  induction h with
  | nil => exact .nil
  | cons hab _ ih =>
    exact .cons (hRS _ (List.mem_cons_self ..) _ (List.mem_cons_self ..) hab)
      (ih fun a ha b hb => hRS a (List.mem_cons_of_mem _ ha) b (List.mem_cons_of_mem _ hb))

/-- Every item on the left is related to some item on the right. -/
theorem exists_mem_of_forall₂ {α β : Type} {R : α → β → Prop} {as : List α} {bs : List β}
    (h : List.Forall₂ R as bs) {a : α} (ha : a ∈ as) : ∃ b ∈ bs, R a b := by
  induction h with
  | nil => cases ha
  | cons hab _ ih =>
    rcases List.mem_cons.1 ha with rfl | ha
    · exact ⟨_, List.mem_cons_self .., hab⟩
    · obtain ⟨b, hb, hab⟩ := ih ha
      exact ⟨b, List.mem_cons_of_mem _ hb, hab⟩

/-- If every item is related to something, the list is related to some list: the choices are made
one after the other. -/
theorem exists_forall₂ {α β : Type} {R : α → β → Prop} {as : List α} (h : ∀ a ∈ as, ∃ b, R a b) :
    ∃ bs, List.Forall₂ R as bs := by
  induction as with
  | nil => exact ⟨[], .nil⟩
  | cons a as ih =>
    rw [List.forall_mem_cons] at h
    obtain ⟨b, hb⟩ := h.1
    obtain ⟨bs, hbs⟩ := ih h.2
    exact ⟨b :: bs, .cons hb hbs⟩

/-- Related to copies of one item is related to that item each. -/
theorem forall₂_replicate_right {α β : Type} {R : α → β → Prop} {as : List α} {n : Nat} {b : β} :
    List.Forall₂ R as (List.replicate n b) ↔ as.length = n ∧ ∀ a ∈ as, R a b := by
  induction as generalizing n with
  | nil => cases n <;> simp [List.replicate_succ]
  | cons a as ih => cases n <;> simp [List.replicate_succ, ih, and_left_comm]

/-- A relation that chains at the items of three lists chains all along them. -/
theorem forall₂_trans_of_mem {α : Type} {R : α → α → Prop} {as bs cs : List α}
    (hab : List.Forall₂ R as bs) (hbc : List.Forall₂ R bs cs)
    (hR : ∀ a ∈ as, ∀ b ∈ bs, ∀ c ∈ cs, R a b → R b c → R a c) : List.Forall₂ R as cs := by
  induction hab generalizing cs with
  | nil => exact hbc
  | cons hab _ ih =>
    obtain ⟨c, cs, hc, hcs, rfl⟩ := List.forall₂_cons_left_iff.1 hbc
    refine .cons (hR _ (List.mem_cons_self ..) _ (List.mem_cons_self ..) _ (List.mem_cons_self ..)
      hab hc) (ih hcs ?_)
    intro a ha b hb c hc
    exact hR a (List.mem_cons_of_mem _ ha) b (List.mem_cons_of_mem _ hb) c
      (List.mem_cons_of_mem _ hc)

/-- What two relations to common items make of each other holds all along. So two things that are
known of the same list are known of each other. -/
theorem forall₂_of_common {α β γ : Type} {R : α → β → Prop} {S : α → γ → Prop} {T : β → γ → Prop}
    {as : List α} {bs : List β} {cs : List γ} (hR : List.Forall₂ R as bs)
    (hS : List.Forall₂ S as cs) (hT : ∀ a b c, R a b → S a c → T b c) : List.Forall₂ T bs cs := by
  induction hR generalizing cs with
  | nil =>
    cases hS
    exact .nil
  | cons hab _ ih =>
    obtain ⟨c, cs, hac, hrest, rfl⟩ := List.forall₂_cons_left_iff.1 hS
    exact .cons (hT _ _ _ hab hac) (ih hrest)

theorem forall₂_set {α β : Type} {R : α → β → Prop} {as : List α} {bs : List β}
    (h : List.Forall₂ R as bs) {i : Nat} {a : α} {b : β} (hb : bs[i]? = some b) (hab : R a b) :
    List.Forall₂ R (as.set i a) bs := by
  induction h generalizing i with
  | nil => cases hb
  | cons hhead htail ih =>
    cases i with
    | zero =>
      obtain rfl := Option.some.inj hb
      exact .cons hab htail
    | succ i => exact .cons hhead (ih hb)

theorem forall₂_set_set {α β : Type} {R : α → β → Prop} {as : List α} {bs : List β}
    (h : List.Forall₂ R as bs) {a : α} {b : β} (hab : R a b) (i : Nat) :
    List.Forall₂ R (as.set i a) (bs.set i b) := by
  induction h generalizing i with
  | nil => exact .nil
  | cons hhead htail ih =>
    cases i with
    | zero => exact .cons hab htail
    | succ i => exact .cons hhead (ih i)

/-- Where there is an item in the second list, there is a related one in the first. -/
theorem exists_getElem?_of_forall₂ {α β : Type} {R : α → β → Prop} {as : List α} {bs : List β}
    (h : List.Forall₂ R as bs) {i : Nat} {b : β} (hb : bs[i]? = some b) :
    ∃ a, as[i]? = some a ∧ R a b := by
  induction h generalizing i with
  | nil => cases hb
  | cons hhead _ ih =>
    cases i with
    | zero =>
      obtain rfl := Option.some.inj hb
      exact ⟨_, rfl, hhead⟩
    | succ i => exact ih hb

/-- Lists that are related each are related when they are zipped. -/
theorem forall₂_zip {α β γ δ : Type} {R : α → β → Prop} {S : γ → δ → Prop} {as : List α}
    {bs : List β} {cs : List γ} {ds : List δ} (hR : List.Forall₂ R as bs)
    (hS : List.Forall₂ S cs ds) :
    List.Forall₂ (fun p q => R p.1 q.1 ∧ S p.2 q.2) (as.zip cs) (bs.zip ds) := by
  induction hR generalizing cs ds with
  | nil => exact .nil
  | cons hab _ ih =>
    cases hS with
    | nil => exact .nil
    | cons hcd hrest => exact .cons ⟨hab, hcd⟩ (ih hrest)

/-- The items at one position of two related lists. -/
theorem getElem?_of_forall₂ {α β : Type} {R : α → β → Prop} {as : List α} {bs : List β}
    (h : List.Forall₂ R as bs) {i : Nat} {a : α} {b : β} (ha : as[i]? = some a)
    (hb : bs[i]? = some b) : R a b := by
  induction h generalizing i with
  | nil => cases ha
  | cons hhead _ ih =>
    cases i with
    | zero =>
      obtain rfl := Option.some.inj ha
      obtain rfl := Option.some.inj hb
      exact hhead
    | succ i => exact ih ha hb

/-- Two lists are related all along if every item is related to the item at its position. -/
theorem forall₂_of_range {α β : Type} {R : α → β → Prop} {as : List α} {bs : List β}
    (h : List.Forall₂ (fun i b => ∀ a, as[i]? = some a → R a b) (List.range as.length) bs) :
    List.Forall₂ R as bs := by
  have hlen : as.length = bs.length := by rw [← h.length_eq, List.length_range]
  refine List.forall₂_iff_get.2 ⟨hlen, ?_⟩
  intro i hi hi'
  have hget := (List.forall₂_iff_get.1 h).2 i (by rwa [List.length_range]) hi'
  simp only [List.get_eq_getElem, List.getElem_range] at hget
  exact hget as[i] (List.getElem?_eq_getElem hi)

theorem map_eq_of_forall₂ {α β γ : Type} {f : α → γ} {g : β → γ} {as : List α} {bs : List β}
    (h : List.Forall₂ (fun a b => f a = g b) as bs) : as.map f = bs.map g := by
  induction h with
  | nil => rfl
  | cons hab _ ih => rw [List.map_cons, List.map_cons, hab, ih]

theorem exists_eq_map_some {α : Type} {as : List (Option α)} (h : none ∉ as) :
    ∃ bs : List α, as = bs.map some := by
  induction as with
  | nil => exact ⟨[], rfl⟩
  | cons a as ih =>
    rw [List.mem_cons, not_or] at h
    obtain ⟨b, hb⟩ := Option.ne_none_iff_exists.1 fun ha => h.1 ha.symm
    obtain ⟨bs, rfl⟩ := ih h.2
    refine ⟨b :: bs, ?_⟩
    rw [List.map_cons, hb]

/-- A check of items with their positions comes out the same on lists that agree in it at every
position. -/
theorem all_zipIdx_congr {α β : Type} {f : α × Nat → Bool} {g : β × Nat → Bool} {as : List α}
    {bs : List β} (h : List.Forall₂ (fun a b => ∀ i, f (a, i) = g (b, i)) as bs) (start : Nat) :
    (as.zipIdx start).all f = (bs.zipIdx start).all g := by
  induction h generalizing start with
  | nil => rfl
  | cons hab _ ih => simp only [List.zipIdx_cons, List.all_cons, hab, ih]

end SymbolicBytes
