import SymbolicBytes.Proofs.ByteClasses
import SymbolicBytes.Proofs.SymParts
/-!
# More levels for the walk

The number of levels that a walk goes through decides nothing but whether it gives up: with more
levels it gives the same outcome, unless it gave up with fewer (`sameUnlessTooDeep_of_le`). The
relation `Outcome.SameUnlessTooDeep` between two outcomes is kept by every way of sequencing, and so
by one level of the walk, which goes to the values directly inside and to no others.
-/

namespace SymbolicBytes

/-- Whether the first outcome is the second one, unless it is that a value is nested too deep. -/
def Outcome.SameUnlessTooDeep {α : Type} (x y : Outcome α) : Prop := x = .error .tooDeep ∨ x = y

namespace Outcome.SameUnlessTooDeep

variable {α β : Type}

theorem refl (x : Outcome α) : x.SameUnlessTooDeep x := .inr rfl

/-- Two outcomes of which neither gave up where the other did not are the same. -/
theorem antisymm {x y : Outcome α} (h : x.SameUnlessTooDeep y) (h' : y.SameUnlessTooDeep x) :
    x = y := by
  rcases h with rfl | h
  · rcases h' with h' | h' <;> exact h'.symm
  · exact h

theorem eq_ok {x y : Outcome α} (h : x.SameUnlessTooDeep y) {a : α} (hx : x = .ok a) :
    y = .ok a := by
  rcases h with rfl | rfl
  · cases hx
  · exact hx

theorem bind {x y : Outcome α} {f g : α → Outcome β} (hxy : x.SameUnlessTooDeep y)
    (hfg : ∀ a, (f a).SameUnlessTooDeep (g a)) : (x >>= f).SameUnlessTooDeep (y >>= g) := by
  rcases hxy with rfl | rfl
  · exact .inl rfl
  · cases x with
    | error fault => exact .inr rfl
    | ok a => exact hfg a

theorem map (f : α → β) {x y : Outcome α} (h : x.SameUnlessTooDeep y) :
    (f <$> x).SameUnlessTooDeep (f <$> y) := by
  rcases h with rfl | rfl
  · exact .inl rfl
  · exact .inr rfl

theorem mapM {f g : α → Outcome β} {as : List α} (h : ∀ a ∈ as, (f a).SameUnlessTooDeep (g a)) :
    (as.mapM f).SameUnlessTooDeep (as.mapM g) := by
  induction as with
  | nil => exact .refl _
  | cons a as ih =>
    obtain ⟨ha, has⟩ := List.forall_mem_cons.1 h
    rw [List.mapM_cons, List.mapM_cons]
    exact ha.bind fun b => (ih has).bind fun bs => .refl _

theorem gather {read read' : α → Outcome (Option β)} {as : List α}
    (h : ∀ a ∈ as, (read a).SameUnlessTooDeep (read' a)) :
    (gather read as).SameUnlessTooDeep (gather read' as) := by
  induction as with
  | nil => exact .refl _
  | cons a as ih =>
    obtain ⟨ha, has⟩ := List.forall_mem_cons.1 h
    rw [gather_cons, gather_cons]
    refine ha.bind fun b => ?_
    cases b with
    | none => exact .refl _
    | some b => exact (ih has).map _

end Outcome.SameUnlessTooDeep

namespace Machine

open Outcome (SameUnlessTooDeep)

variable {machine : Machine} {decide decide' : SymValue → Outcome Value}

/-! ## One level -/

/-- A choice gives the same, unless one of its operands is too deep. -/
theorem sameUnlessTooDeep_selectBy_of_operands {cond ifTrue ifFalse : SymValue}
    (hcond : (decide cond).SameUnlessTooDeep (decide' cond))
    (htrue : (decide ifTrue).SameUnlessTooDeep (decide' ifTrue))
    (hfalse : (decide ifFalse).SameUnlessTooDeep (decide' ifFalse)) :
    (selectBy decide cond ifTrue ifFalse).SameUnlessTooDeep
      (selectBy decide' cond ifTrue ifFalse) := by
  refine hcond.bind fun c => ?_
  split
  · split
    · rename_i b _
      cases b
      · exact hfalse
      · exact htrue
    · exact .refl _
  · exact htrue.bind fun v => .refl _
  · exact htrue.bind fun t => hfalse.bind fun e => .refl _
  · exact .refl _

theorem sameUnlessTooDeep_selectBy (h : ∀ v, (decide v).SameUnlessTooDeep (decide' v))
    (cond ifTrue ifFalse : SymValue) :
    (selectBy decide cond ifTrue ifFalse).SameUnlessTooDeep
      (selectBy decide' cond ifTrue ifFalse) :=
  sameUnlessTooDeep_selectBy_of_operands (h cond) (h ifTrue) (h ifFalse)

/-- Of a class, the parent of the seed and the positions of all bytes are decided; the parents of
the other bytes are never gone to. -/
theorem sameUnlessTooDeep_resolveClass {c : ItemClass SymByte}
    (hparent : (decide c.seed.1.parent).SameUnlessTooDeep (decide' c.seed.1.parent))
    (hindex : ∀ item ∈ c.items,
      (decide item.1.index).SameUnlessTooDeep (decide' item.1.index)) :
    (machine.resolveClass decide c).SameUnlessTooDeep (machine.resolveClass decide' c) := by
  rw [resolveClass_eq, resolveClass_eq]
  refine hparent.bind fun parent => ?_
  split
  · exact .refl _
  · refine .gather fun item hitem => ?_
    -- of a byte, only the position is decided
    have hbyte : (machine.resolveByte decide parent item.1).SameUnlessTooDeep
        (machine.resolveByte decide' parent item.1) :=
      ((hindex item hitem).bind fun i => .refl _).bind fun index => .refl _
    exact hbyte.map _

theorem sameUnlessTooDeep_valueOfBytesBy {bytes : List SymByte}
    (h : ∀ b ∈ bytes, (decide b.parent).SameUnlessTooDeep (decide' b.parent) ∧
      (decide b.index).SameUnlessTooDeep (decide' b.index)) (ty : Ty) :
    (machine.valueOfBytesBy decide bytes ty).SameUnlessTooDeep
      (machine.valueOfBytesBy decide' bytes ty) := by
  have hclass : ∀ c ∈ itemClasses SymByte.entangled bytes,
      (machine.resolveClass decide c).SameUnlessTooDeep (machine.resolveClass decide' c) := by
    intro c hc
    have hmem : ∀ item ∈ c.items, item.1 ∈ bytes := fun item => mem_of_mem_items hc
    exact sameUnlessTooDeep_resolveClass (h _ (hmem _ (List.mem_cons_self ..))).1
      fun item hitem => (h _ (hmem item hitem)).2
  simp only [valueOfBytesBy]
  split
  · exact .refl _
  · exact (SameUnlessTooDeep.gather hclass).bind fun resolved => .refl _

/-- One level of the walk gives the same, unless a value directly inside is too deep. Whatever a
short cut leaves out, the exact match of a whole store or a branch that is not chosen, is left out
on both sides. -/
theorem sameUnlessTooDeep_concretizeBy {v : SymValue}
    (h : ∀ w ∈ v.inside, (decide w).SameUnlessTooDeep (decide' w)) :
    (machine.concretizeBy decide v).SameUnlessTooDeep (machine.concretizeBy decide' v) := by
  cases v with
  | scalar s => cases s <;> exact .refl _
  | aggregate kind members => exact (SameUnlessTooDeep.mapM h).map _
  | binary op left right =>
    simp only [SymValue.inside, List.forall_mem_cons] at h
    exact h.1.bind fun l => h.2.1.bind fun r => .refl _
  | cast op source value target =>
    simp only [SymValue.inside, List.forall_mem_cons] at h
    exact h.1.bind fun w => .refl _
  | select cond ifTrue ifFalse =>
    simp only [SymValue.inside, List.forall_mem_cons] at h
    exact sameUnlessTooDeep_selectBy_of_operands h.1 h.2.1 h.2.2.1
  | extract whole path =>
    simp only [SymValue.inside, List.forall_mem_cons] at h
    exact h.1.bind fun w => .refl _
  | insert whole element path =>
    simp only [SymValue.inside, List.forall_mem_cons] at h
    exact h.1.bind fun w => h.2.1.bind fun e => .refl _
  | concat bytes ty =>
    rw [SymValue.forall_mem_inside_concat] at h
    refine SameUnlessTooDeep.bind (.refl _) fun _ => ?_
    split
    · -- the parent of a whole store is that of its first byte, which is directly inside
      rename_i parent hintact
      obtain ⟨first, rest, rfl, rfl, -, -⟩ := of_intactParent?_eq_some hintact
      exact (h first (List.mem_cons_self ..)).1
    · exact sameUnlessTooDeep_valueOfBytesBy h ty
  | _ => exact .refl _

/-- One level of the walk goes to the values directly inside and to no others: how anything else
would be decided makes no difference. -/
theorem concretizeBy_eq_of_inside {v : SymValue} (h : ∀ w ∈ v.inside, decide w = decide' w) :
    machine.concretizeBy decide v = machine.concretizeBy decide' v :=
  SameUnlessTooDeep.antisymm (sameUnlessTooDeep_concretizeBy fun w hw => .inr (h w hw))
    (sameUnlessTooDeep_concretizeBy fun w hw => .inr (h w hw).symm)

/-! ## All levels -/

/-- With more levels, the walk gives the same, unless it gave up. The induction is on the smaller
number of levels, with the other one free. -/
theorem sameUnlessTooDeep_of_le {levels more : Nat} (hle : levels ≤ more) (v : SymValue) :
    (machine.concretizeWithin levels v).SameUnlessTooDeep (machine.concretizeWithin more v) := by
  induction levels generalizing more v with
  | zero => exact .inl rfl
  | succ levels ih =>
    obtain ⟨more, rfl⟩ := Nat.exists_eq_add_of_lt (Nat.lt_of_succ_le hle)
    exact sameUnlessTooDeep_concretizeBy fun w _ => ih (Nat.le_add_right ..) w

/-- What is decided with some levels is decided so with more, and so at a smaller depth. -/
theorem concretizeWithin_eq_ok_of_le {levels more : Nat} (hle : levels ≤ more) {v : SymValue}
    {d : Value} (h : machine.concretizeWithin levels v = .ok d) :
    machine.concretizeWithin more v = .ok d :=
  (sameUnlessTooDeep_of_le hle v).eq_ok h

/-- What is not nested too deep is decided so with any more levels, the first of which leaves enough
for all that is decided already. -/
theorem concretize_eq_concretizeBy {v : SymValue} (h : machine.concretize v ≠ .error .tooDeep)
    (more : Nat) :
    machine.concretize v =
      machine.concretizeBy (machine.concretizeWithin (depthLimit + 1 + more)) v :=
  (sameUnlessTooDeep_of_le (Nat.le_succ_of_le (Nat.le_add_right _ more)) v).resolve_left h

end Machine

end SymbolicBytes
