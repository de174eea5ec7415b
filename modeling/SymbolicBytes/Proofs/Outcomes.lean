import SymbolicBytes.Machine
import SymbolicBytes.Proofs.Lists
/-!
# Sequencing of outcomes

How an outcome that is put together comes about from its pieces: one inversion lemma for each way
of sequencing, so that a result is peeled apart without opening the monad. The second half is about
`gather`, the walk that stops at the first fault and at the first poison: it succeeds exactly if all
reads do, it is stopped by the first item that stops it, and a walk over classes of items is the
walk over all items one after the other (`gather_gather`).
-/

namespace SymbolicBytes

namespace Outcome

variable {α β : Type}

@[simp] theorem pure_eq_ok (a : α) : (pure a : Outcome α) = .ok a := rfl

@[simp] theorem ok_bind (a : α) (f : α → Outcome β) : (Except.ok a : Outcome α) >>= f = f a := rfl

@[simp] theorem error_bind (fault : Fault) (f : α → Outcome β) :
    (Except.error fault : Outcome α) >>= f = .error fault := rfl

@[simp] theorem map_ok (f : α → β) (a : α) : f <$> (Except.ok a : Outcome α) = .ok (f a) := rfl

@[simp] theorem map_error (f : α → β) (fault : Fault) :
    f <$> (Except.error fault : Outcome α) = .error fault := rfl

/-- A value comes out of a sequence only by way of a value of its first half. Every result below is
peeled apart by this equivalence. -/
theorem bind_eq_ok {x : Outcome α} {f : α → Outcome β} {b : β} :
    x >>= f = .ok b ↔ ∃ a, x = .ok a ∧ f a = .ok b := by
  cases x <;> simp

/-- A check that is passed says nothing more than that it is. -/
theorem check_bind_eq_ok {x : Outcome Unit} {f : Unit → Outcome β} {b : β} :
    x >>= f = .ok b ↔ x = .ok () ∧ f () = .ok b := by
  cases x <;> simp

/-- A fault of a sequence is one of its first half, which hides the second, or one of the second on
the value of the first. -/
theorem bind_eq_error {x : Outcome α} {f : α → Outcome β} {fault : Fault} :
    x >>= f = .error fault ↔ x = .error fault ∨ ∃ a, x = .ok a ∧ f a = .error fault := by
  cases x <;> simp

theorem map_eq_ok {x : Outcome α} {f : α → β} {b : β} :
    f <$> x = .ok b ↔ ∃ a, x = .ok a ∧ f a = b := by
  cases x <;> simp

theorem map_eq_error {x : Outcome α} {f : α → β} {fault : Fault} :
    f <$> x = .error fault ↔ x = .error fault := by
  cases x <;> simp

/-- Whatever the check says, the outcome is that of one of the branches. This is for proofs in which
both do, so that the check need not be opened. -/
theorem eq_or_eq_of_ite {p : Prop} [Decidable p] {x y z : Outcome α}
    (h : (if p then x else y) = z) : x = z ∨ y = z := by
  split at h
  · exact .inl h
  · exact .inr h

/-- A walk over a list has a result exactly if every item has one. As a relation of the two lists it
can be combined with what else is known of them item by item. -/
theorem mapM_eq_ok {f : α → Outcome β} {as : List α} {bs : List β} :
    as.mapM f = .ok bs ↔ List.Forall₂ (fun a b => f a = .ok b) as bs := by
  induction as generalizing bs with
  | nil => simp [List.forall₂_nil_left_iff, eq_comm]
  | cons a as ih =>
    simp only [List.mapM_cons, bind_eq_ok, pure_eq_ok, Except.ok.injEq, ih,
      List.forall₂_cons_left_iff]
    constructor
    · rintro ⟨b, hb, rest, hrest, rfl⟩
      exact ⟨b, rest, hb, hrest, rfl⟩
    · rintro ⟨b, rest, hb, hrest, rfl⟩
      exact ⟨b, hb, rest, hrest, rfl⟩

theorem mapM_eq_error {f : α → Outcome β} {as : List α} {fault : Fault}
    (h : as.mapM f = .error fault) : ∃ a ∈ as, f a = .error fault := by
  induction as with
  | nil => cases h
  | cons a as ih =>
    simp only [List.mapM_cons, bind_eq_error, pure_eq_ok, reduceCtorEq, and_false, exists_false,
      or_false] at h
    rcases h with h | ⟨b, -, h⟩
    · exact ⟨a, List.mem_cons_self .., h⟩
    · obtain ⟨a', ha', hfault⟩ := ih h
      exact ⟨a', List.mem_cons_of_mem _ ha', hfault⟩

theorem exists_mapM_eq_ok {f : α → Outcome β} {as : List α} (h : ∀ a ∈ as, ∃ b, f a = .ok b) :
    ∃ bs, as.mapM f = .ok bs := by
  induction as with
  | nil => exact ⟨[], rfl⟩
  | cons a as ih =>
    obtain ⟨b, hb⟩ := h a (List.mem_cons_self ..)
    obtain ⟨bs, hbs⟩ := ih fun a ha => h a (List.mem_cons_of_mem _ ha)
    refine ⟨b :: bs, ?_⟩
    rw [List.mapM_cons, hb, hbs]
    rfl

/-- Where every item has a result that is related to a third thing, the walk has a result, and the
results are related to those things one by one. -/
theorem exists_mapM_of_forall₂ {γ : Type} {R : β → γ → Prop} {f : α → Outcome β} {as : List α}
    {cs : List γ} (h : List.Forall₂ (fun a c => ∃ b, f a = .ok b ∧ R b c) as cs) :
    ∃ bs, as.mapM f = .ok bs ∧ List.Forall₂ R bs cs := by
  induction h with
  | nil => exact ⟨[], rfl, .nil⟩
  | cons hac _ ih =>
    obtain ⟨b, hb, hbc⟩ := hac
    obtain ⟨bs, hbs, hrest⟩ := ih
    refine ⟨b :: bs, ?_, .cons hbc hrest⟩
    rw [List.mapM_cons, hb, hbs]
    rfl

theorem mapM_congr {γ : Type} {f : α → Outcome γ} {g : β → Outcome γ} {as : List α} {bs : List β}
    (h : List.Forall₂ (fun a b => f a = g b) as bs) : as.mapM f = bs.mapM g := by
  induction h with
  | nil => rfl
  | cons hab _ ih => rw [List.mapM_cons, List.mapM_cons, hab, ih]

theorem exists_mapM_eq_ok_iff {f : α → Outcome β} {as : List α} :
    (∃ bs, as.mapM f = .ok bs) ↔ ∀ (i : Nat) (a : α), as[i]? = some a → ∃ b, f a = .ok b := by
  constructor
  · rintro ⟨bs, hbs⟩ i a ha
    obtain ⟨b, -, hb⟩ := exists_mem_of_forall₂ (mapM_eq_ok.1 hbs) (List.mem_of_getElem? ha)
    exact ⟨b, hb⟩
  · intro h
    apply exists_mapM_eq_ok
    intro a ha
    obtain ⟨i, hi⟩ := List.getElem?_of_mem ha
    exact h i a hi

/-- The first item that has no result stops the walk over a list, and its fault is the fault of the
whole; what later items come to does not show. -/
theorem mapM_eq_error_iff {f : α → Outcome β} {as : List α} {fault : Fault} :
    as.mapM f = .error fault ↔
      ∃ (i : Nat) (a : α), as[i]? = some a ∧ f a = .error fault ∧
        ∀ j < i, ∀ c : α, as[j]? = some c → ∃ b, f c = .ok b := by
  induction as with
  | nil => simp
  | cons a as ih =>
    rw [List.mapM_cons, bind_eq_error]
    constructor
    · rintro (h | ⟨b, hb, h⟩)
      · exact ⟨0, a, rfl, h, nofun⟩
      · have hrest : as.mapM f = .error fault := by
          rcases bind_eq_error.1 h with h | ⟨bs, -, h⟩
          · exact h
          · cases h
        obtain ⟨i, c, hc, hfault, hbefore⟩ := ih.1 hrest
        refine ⟨i + 1, c, hc, hfault, ?_⟩
        intro j hj c' hc'
        cases j with
        | zero =>
          obtain rfl := Option.some.inj hc'
          exact ⟨b, hb⟩
        | succ j => exact hbefore j (Nat.lt_of_succ_lt_succ hj) c' hc'
    · rintro ⟨i, c, hc, hfault, hbefore⟩
      cases i with
      | zero =>
        obtain rfl := Option.some.inj hc
        exact .inl hfault
      | succ i =>
        obtain ⟨b, hb⟩ := hbefore 0 (Nat.zero_lt_succ i) a rfl
        refine .inr ⟨b, hb, bind_eq_error.2 (.inl (ih.2 ⟨i, c, hc, hfault, ?_⟩))⟩
        intro j hj c' hc'
        exact hbefore (j + 1) (Nat.succ_lt_succ hj) c' hc'

end Outcome

/-! ## Gathering -/

section Gather

variable {α β γ : Type}

@[simp] theorem gather_nil (read : α → Outcome (Option β)) : gather read [] = .ok (some []) := rfl

theorem gather_cons (read : α → Outcome (Option β)) (a : α) (as : List α) :
    gather read (a :: as) =
      read a >>= fun
        | none => .ok none
        | some b => (Option.map (b :: ·)) <$> gather read as := by
  rw [gather]
  rcases read a with fault | _ | b
  · rfl
  · rfl
  · rcases gather read as with fault | _ | bs <;> rfl

theorem gather_cons_some {read : α → Outcome (Option β)} {a : α} {b : β} (h : read a = .ok (some b))
    (as : List α) : gather read (a :: as) = (Option.map (b :: ·)) <$> gather read as := by
  rw [gather_cons, h, Outcome.ok_bind]

/-- A walk that also stops at poison has a result exactly if no item is poison or a fault. -/
theorem gather_eq_some_iff {read : α → Outcome (Option β)} {as : List α} {bs : List β} :
    gather read as = .ok (some bs) ↔ List.Forall₂ (fun a b => read a = .ok (some b)) as bs := by
  induction as generalizing bs with
  | nil => simp [List.forall₂_nil_left_iff, eq_comm]
  | cons a as ih =>
    rcases h : read a with fault | _ | b
    · simp [gather_cons, h, List.forall₂_cons_left_iff]
    · simp [gather_cons, h, List.forall₂_cons_left_iff]
    · simp only [gather_cons_some h, Outcome.map_eq_ok, Option.map_eq_some_iff, h,
        List.forall₂_cons_left_iff, Except.ok.injEq, Option.some.injEq]
      constructor
      · rintro ⟨_, hrest, rest, rfl, rfl⟩
        exact ⟨b, rest, rfl, ih.1 hrest, rfl⟩
      · rintro ⟨_, rest, rfl, hrest, rfl⟩
        exact ⟨some rest, ih.2 hrest, rest, rfl, rfl⟩

theorem exists_gather_eq_some {read : α → Outcome (Option β)} {as : List α}
    (h : ∀ a ∈ as, ∃ b, read a = .ok (some b)) : ∃ bs, gather read as = .ok (some bs) := by
  induction as with
  | nil => exact ⟨[], rfl⟩
  | cons a as ih =>
    obtain ⟨b, hb⟩ := h a (List.mem_cons_self ..)
    obtain ⟨bs, hbs⟩ := ih fun a ha => h a (List.mem_cons_of_mem _ ha)
    refine ⟨b :: bs, ?_⟩
    rw [gather_cons_some hb, hbs]
    rfl

/-- Items that can be read are passed over, so what a walk comes to is decided by what is left. -/
theorem gather_skip {read : α → Outcome (Option β)} {before : List α}
    (h : ∀ a ∈ before, ∃ b, read a = .ok (some b)) (as : List α) :
    ∃ bs, gather read (before ++ as) = (Option.map (bs ++ ·)) <$> gather read as := by
  induction before with
  | nil =>
    refine ⟨[], ?_⟩
    rw [List.nil_append]
    rcases gather read as with fault | _ | bs <;> rfl
  | cons a before ih =>
    obtain ⟨b, hb⟩ := h a (List.mem_cons_self ..)
    obtain ⟨bs, hbs⟩ := ih fun a ha => h a (List.mem_cons_of_mem _ ha)
    refine ⟨b :: bs, ?_⟩
    rw [List.cons_append, gather_cons_some hb, hbs]
    rcases gather read as with fault | _ | cs <;> rfl

/-- The first fault stops the walk, unless poison comes first: a fault behind poison is never found.
-/
theorem gather_eq_error {read : α → Outcome (Option β)} {before after : List α} {a : α}
    {fault : Fault} (h : ∀ a ∈ before, ∃ b, read a = .ok (some b)) (ha : read a = .error fault) :
    gather read (before ++ a :: after) = .error fault := by
  obtain ⟨bs, hbs⟩ := gather_skip h (a :: after)
  rw [hbs, gather_cons, ha]
  rfl

/-- The first poison stops the walk, unless a fault comes first, and what is behind it is not read.
-/
theorem gather_eq_none {read : α → Outcome (Option β)} {before after : List α} {a : α}
    (h : ∀ a ∈ before, ∃ b, read a = .ok (some b)) (ha : read a = .ok none) :
    gather read (before ++ a :: after) = .ok none := by
  obtain ⟨bs, hbs⟩ := gather_skip h (a :: after)
  rw [hbs, gather_cons, ha]
  rfl

/-- What a walk over two lists comes to is decided by the first, unless all of it can be read. -/
theorem gather_append {read : α → Outcome (Option β)} (as bs : List α) :
    gather read (as ++ bs) =
      gather read as >>= fun
        | none => .ok none
        | some cs => (Option.map (cs ++ ·)) <$> gather read bs := by
  induction as with
  | nil =>
    simp only [List.nil_append, gather_nil, Outcome.ok_bind]
    rcases gather read bs with fault | _ | cs <;> rfl
  | cons a as ih =>
    rcases h : read a with fault | _ | b
    · simp [gather_cons, h]
    · simp [gather_cons, h]
    · rw [List.cons_append, gather_cons_some h, gather_cons_some h, ih]
      rcases gather read as with fault | _ | cs
      · rfl
      · rfl
      · simp only [Outcome.ok_bind, Outcome.map_ok, Option.map_some]
        rcases gather read bs with fault | _ | ds <;> rfl

/-- Walking class by class is walking over all items of the classes in one go: the classes fix
nothing but the order in which items are read. -/
theorem gather_gather {read : α → Outcome (Option β)} {items : γ → List α} (cs : List γ) :
    (Option.map List.flatten) <$> gather (fun c => gather read (items c)) cs =
      gather read (cs.flatMap items) := by
  induction cs with
  | nil => rfl
  | cons c cs ih =>
    rw [List.flatMap_cons, gather_append, ← ih, gather_cons]
    rcases gather read (items c) with fault | _ | bs
    · rfl
    · rfl
    · rcases gather (fun c => gather read (items c)) cs with fault | _ | bss <;> rfl

theorem gather_congr {read : α → Outcome (Option γ)} {read' : β → Outcome (Option γ)} {as : List α}
    {bs : List β} (h : List.Forall₂ (fun a b => read a = read' b) as bs) :
    gather read as = gather read' bs := by
  induction h with
  | nil => rfl
  | cons hab _ ih => simp only [gather_cons, hab, ih]

/-- Poison stops the walk over items that all can be read, wherever it is. Without faults the order
does not matter any more. -/
theorem gather_eq_none_of_mem {read : α → Outcome (Option β)} {as : List α}
    (h : ∀ a ∈ as, ∃ b, read a = .ok b) {a : α} (ha : a ∈ as) (hpoison : read a = .ok none) :
    gather read as = .ok none := by
  induction as with
  | nil => cases ha
  | cons b bs ih =>
    obtain ⟨x, hx⟩ := h b (List.mem_cons_self ..)
    cases x with
    | none => simp only [gather_cons, hx, Outcome.ok_bind]
    | some x =>
      rcases List.mem_cons.1 ha with rfl | ha
      · simp [hx] at hpoison
      · rw [gather_cons_some hx, ih (fun c hc => h c (List.mem_cons_of_mem _ hc)) ha]
        rfl

/-- Walking over items that carry their positions keeps the positions, so that the results can be
put in their places afterwards. -/
theorem gather_zipIdx (read : α → Outcome (Option β)) (as : List α) (start : Nat) :
    gather (fun item => (Option.map fun b => (item.2, b)) <$> read item.1) (as.zipIdx start) =
      (Option.map fun bs => (bs.zipIdx start).map Prod.swap) <$> gather read as := by
  induction as generalizing start with
  | nil => rfl
  | cons a as ih =>
    rw [List.zipIdx_cons, gather_cons, gather_cons, ih]
    rcases read a with fault | _ | b
    · rfl
    · rfl
    · rcases gather read as with fault | _ | bs <;> rfl

theorem gather_singleton (read : α → Outcome (Option β)) (a : α) :
    gather read [a] = (Option.map fun b => [b]) <$> read a := by
  rcases h : read a with fault | _ | b <;> simp [gather_cons, h]

end Gather

end SymbolicBytes
