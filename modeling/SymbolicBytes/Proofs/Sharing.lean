import SymbolicBytes.Proofs.Equality
import SymbolicBytes.Proofs.Lists
import SymbolicBytes.Proofs.SymParts
/-!
# Shared parents

A reference stands for one parent. `SymValue.SharedIn heap` says so of a whole value: every symbolic
byte inside it, parents and positions included, has the parent that its reference has in the heap.

On values that share a heap, equality is transitive (`equalWithin_trans`), equal values read the
same in messages (`display_eq_of_equalWithin`), and entanglement is an equivalence
(`entangled_trans`).
-/

namespace SymbolicBytes

/-! ## One heap -/

variable {heap : ParentRef → SymValue}

/-- Whether the value, if it is a byte, has the parent that its reference stands for. -/
def SymValue.SharedByte (heap : ParentRef → SymValue) : SymValue → Prop
  | .byte b => b.parent = heap b.ref
  | _ => True

/-- Whether the references inside the value stand for the parents of a heap. -/
def SymValue.SharedIn (heap : ParentRef → SymValue) (v : SymValue) : Prop :=
  v.AllParts (SharedByte heap)

/-- Whether the references of the byte and of those inside it stand for the parents of a heap. -/
def SymByte.SharedIn (heap : ParentRef → SymValue) (b : SymByte) : Prop :=
  b.AllParts (SymValue.SharedByte heap)

theorem SymByte.sharedIn_iff {b : SymByte} :
    b.SharedIn heap ↔
      b.parent = heap b.ref ∧ b.parent.SharedIn heap ∧ b.index.SharedIn heap :=
  SymByte.allParts_iff

namespace SymValue

@[simp] theorem sharedIn_aggregate {kind : AggregateKind} {members : List SymValue} :
    (aggregate kind members).SharedIn heap ↔ ∀ v ∈ members, v.SharedIn heap :=
  allParts_aggregate.trans (and_iff_right trivial)

@[simp] theorem sharedIn_binary {op : BinaryOp} {left right : SymValue} :
    (binary op left right).SharedIn heap ↔ left.SharedIn heap ∧ right.SharedIn heap :=
  allParts_binary.trans (and_iff_right trivial)

@[simp] theorem sharedIn_cast {op : Cast} {source target : Ty} {value : SymValue} :
    (cast op source value target).SharedIn heap ↔ value.SharedIn heap :=
  allParts_cast.trans (and_iff_right trivial)

@[simp] theorem sharedIn_select {cond ifTrue ifFalse : SymValue} :
    (select cond ifTrue ifFalse).SharedIn heap ↔
      cond.SharedIn heap ∧ ifTrue.SharedIn heap ∧ ifFalse.SharedIn heap :=
  allParts_select.trans (and_iff_right trivial)

@[simp] theorem sharedIn_extract {whole : SymValue} {path : List Nat} :
    (extract whole path).SharedIn heap ↔ whole.SharedIn heap :=
  allParts_extract.trans (and_iff_right trivial)

@[simp] theorem sharedIn_insert {whole element : SymValue} {path : List Nat} :
    (insert whole element path).SharedIn heap ↔ whole.SharedIn heap ∧ element.SharedIn heap :=
  allParts_insert.trans (and_iff_right trivial)

@[simp] theorem sharedIn_byte {b : SymByte} : (byte b).SharedIn heap ↔ b.SharedIn heap := Iff.rfl

@[simp] theorem sharedIn_concat {bytes : List SymByte} {ty : Ty} :
    (concat bytes ty).SharedIn heap ↔ ∀ b ∈ bytes, b.SharedIn heap :=
  allParts_concat.trans (and_iff_right trivial)

end SymValue

/-- Bytes under one reference have one parent, which is what makes it sound not to compare their
parents. -/
theorem SymByte.parent_eq_of_ref {a b : SymByte} (ha : a.SharedIn heap) (hb : b.SharedIn heap)
    (h : a.ref = b.ref) : a.parent = b.parent := by
  rw [(SymByte.sharedIn_iff.1 ha).1, (SymByte.sharedIn_iff.1 hb).1, h]

/-! ## Transitivity -/

/-- Whether a relation is transitive on the values that share a heap. -/
def TransOnShared (heap : ParentRef → SymValue) (R : SymValue → SymValue → Prop) : Prop :=
  ∀ u v w : SymValue, u.SharedIn heap → v.SharedIn heap → w.SharedIn heap →
    R u v → R v w → R u w

/-- Having one parent or related ones is transitive where references stand for parents. Without the
heap it would not be: a reference could stand for one parent in the first pair and for another in
the second. -/
theorem TransOnShared.parents {R : SymValue → SymValue → Prop} (hR : TransOnShared heap R)
    {a b c : SymByte} (ha : a.SharedIn heap) (hb : b.SharedIn heap) (hc : c.SharedIn heap)
    (hab : a.ref = b.ref ∨ R a.parent b.parent) (hbc : b.ref = c.ref ∨ R b.parent c.parent) :
    a.ref = c.ref ∨ R a.parent c.parent := by
  rcases hab with hab | hab <;> rcases hbc with hbc | hbc
  · exact .inl (hab.trans hbc)
  · exact .inr (SymByte.parent_eq_of_ref ha hb hab ▸ hbc)
  · exact .inr (SymByte.parent_eq_of_ref hb hc hbc ▸ hab)
  · exact .inr (hR _ _ _ (SymByte.sharedIn_iff.1 ha).2.1 (SymByte.sharedIn_iff.1 hb).2.1
      (SymByte.sharedIn_iff.1 hc).2.1 hab hbc)

theorem SymByte.AlikeBy.trans {R : SymValue → SymValue → Prop} (hR : TransOnShared heap R)
    {a b c : SymByte} (ha : a.SharedIn heap) (hb : b.SharedIn heap) (hc : c.SharedIn heap)
    (hab : a.AlikeBy R b) (hbc : b.AlikeBy R c) : a.AlikeBy R c :=
  ⟨hab.storeId.trans hbc.storeId, hab.ty.trans hbc.ty, hR.parents ha hb hc hab.parent hbc.parent,
    hR _ _ _ (SymByte.sharedIn_iff.1 ha).2.2 (SymByte.sharedIn_iff.1 hb).2.2
      (SymByte.sharedIn_iff.1 hc).2.2 hab.index hbc.index⟩

namespace SymValue

theorem AlikeBy.trans {R : SymValue → SymValue → Prop} (hR : TransOnShared heap R)
    {u v w : SymValue} (hu : u.SharedIn heap) (hv : v.SharedIn heap) (hw : w.SharedIn heap)
    (huv : u.AlikeBy R v) (hvw : v.AlikeBy R w) : u.AlikeBy R w := by
  -- the first comparison tells of what kind all three values are
  cases huv with
  | scalar s => exact hvw
  | undef ty => exact hvw
  | poison ty => exact hvw
  | void => exact hvw
  | aggregate kind members =>
    cases hvw with
    | aggregate _ members' =>
      simp only [sharedIn_aggregate] at hu hv hw
      exact .aggregate kind (forall₂_trans_of_mem members members' fun a ha b hb c hc =>
        hR a b c (hu a ha) (hv b hb) (hw c hc))
  | binary op left right =>
    cases hvw with
    | binary _ left' right' =>
      simp only [sharedIn_binary] at hu hv hw
      exact .binary op (hR _ _ _ hu.1 hv.1 hw.1 left left') (hR _ _ _ hu.2 hv.2 hw.2 right right')
  | cast op source target value =>
    cases hvw with
    | cast _ _ _ value' =>
      simp only [sharedIn_cast] at hu hv hw
      exact .cast op source target (hR _ _ _ hu hv hw value value')
  | select cond ifTrue ifFalse =>
    cases hvw with
    | select cond' ifTrue' ifFalse' =>
      simp only [sharedIn_select] at hu hv hw
      exact .select (hR _ _ _ hu.1 hv.1 hw.1 cond cond')
        (hR _ _ _ hu.2.1 hv.2.1 hw.2.1 ifTrue ifTrue')
        (hR _ _ _ hu.2.2 hv.2.2 hw.2.2 ifFalse ifFalse')
  | extract path whole =>
    cases hvw with
    | extract _ whole' =>
      simp only [sharedIn_extract] at hu hv hw
      exact .extract path (hR _ _ _ hu hv hw whole whole')
  | insert path whole element =>
    cases hvw with
    | insert _ whole' element' =>
      simp only [sharedIn_insert] at hu hv hw
      exact .insert path (hR _ _ _ hu.1 hv.1 hw.1 whole whole')
        (hR _ _ _ hu.2 hv.2 hw.2 element element')
  | byte alike =>
    cases hvw with
    | byte alike' =>
      simp only [sharedIn_byte] at hu hv hw
      exact .byte (alike.trans hR hu hv hw alike')
  | concat ty bytes =>
    cases hvw with
    | concat _ bytes' =>
      simp only [sharedIn_concat] at hu hv hw
      exact .concat ty (forall₂_trans_of_mem bytes bytes' fun a ha b hb c hc =>
        SymByte.AlikeBy.trans hR (hu a ha) (hv b hb) (hw c hc))

/-- Equality to some levels is transitive on the values that share a heap. No levels are lost on the
way, though each comparison may have skipped parents that the other looked at. -/
theorem equalWithin_trans (heap : ParentRef → SymValue) (levels : Nat) :
    TransOnShared heap fun v w => v.equalWithin levels w = true := by
  induction levels with
  | zero =>
    intro u v w _ _ _ huv
    cases huv
  | succ levels ih =>
    intro u v w hu hv hw huv hvw
    exact equalWithin_succ.2 ((equalWithin_succ.1 huv).trans ih hu hv hw (equalWithin_succ.1 hvw))

end SymValue

/-- Entanglement is transitive on the bytes that share a heap, so that their classes are those of an
equivalence and do not depend on the order in which the bytes come. -/
theorem SymByte.entangled_trans {a b c : SymByte} (ha : a.SharedIn heap) (hb : b.SharedIn heap)
    (hc : c.SharedIn heap) (hab : a.entangled b = true) (hbc : b.entangled c = true) :
    a.entangled c = true := by
  obtain ⟨hid, hparent⟩ := entangled_iff.1 hab
  obtain ⟨hid', hparent'⟩ := entangled_iff.1 hbc
  exact entangled_iff.2 ⟨hid.trans hid',
    (SymValue.equalWithin_trans heap (depthLimit + 1)).parents ha hb hc hparent hparent'⟩

/-! ## Messages -/

section Display

variable {v w e cond ifTrue ifFalse : SymValue} {vs : List SymValue} {path : List Nat} {ty : Ty}

theorem SymValue.displayAll_eq_map : displayAll vs = vs.map display := by
  induction vs with
  | nil => rfl
  | cons v vs ih => exact congrArg (v.display :: ·) ih

theorem SymByte.displayAll_eq_map {bs : List SymByte} : displayAll bs = bs.map display := by
  induction bs with
  | nil => rfl
  | cons b bs ih => exact congrArg (b.display :: ·) ih

-- these hold by `rfl`, while the equations that Lean derives from the walk are too slow to use
theorem SymValue.display_aggregate {kind : AggregateKind} :
    (aggregate kind vs).display = kind.enclose (", ".intercalate (displayAll vs)) := rfl

theorem SymValue.display_binary {op : BinaryOp} :
    (binary op v w).display = op.head ++ "(" ++ v.display ++ ", " ++ w.display ++ ")" := rfl

theorem SymValue.display_cast {op : Cast} {source : Ty} :
    (cast op source v ty).display =
      op.display ++ " " ++ source.display ++ " " ++ v.display ++ " to " ++ ty.display := rfl

theorem SymValue.display_select :
    (select cond ifTrue ifFalse).display =
      "select(" ++ cond.display ++ ", " ++ ifTrue.display ++ ", " ++ ifFalse.display ++ ")" := rfl

theorem SymValue.display_extract :
    (extract v path).display =
      "extractvalue(" ++ v.display ++ ", " ++ displayPositions path ++ ")" := rfl

theorem SymValue.display_insert :
    (insert v e path).display =
      "insertvalue(" ++ v.display ++ ", " ++ e.display ++ ", " ++ displayPositions path ++ ")" :=
  rfl

theorem SymValue.display_concat {bytes : List SymByte} :
    (concat bytes ty).display =
      "concatbytes([" ++ ", ".intercalate (SymByte.displayAll bytes) ++ "], " ++ ty.display ++
        ")" :=
  rfl

theorem SymByte.display_eq (b : SymByte) :
    b.display =
      "extractbyte(" ++ b.parent.display ++ ", " ++ b.ty.display ++ ", " ++ b.index.display ++
        ", sid " ++ toString b.storeId ++ ")" := by
  cases b
  rfl

end Display

theorem SymByte.display_eq_of_alikeBy {R : SymValue → SymValue → Prop}
    (hR : ∀ v w : SymValue, v.SharedIn heap → w.SharedIn heap → R v w → v.display = w.display)
    {a b : SymByte} (ha : a.SharedIn heap) (hb : b.SharedIn heap) (h : a.AlikeBy R b) :
    a.display = b.display := by
  obtain ⟨-, hap, hai⟩ := SymByte.sharedIn_iff.1 ha
  obtain ⟨-, hbp, hbi⟩ := SymByte.sharedIn_iff.1 hb
  have hparent : a.parent.display = b.parent.display := by
    rcases h.parent with href | hparent
    · rw [parent_eq_of_ref ha hb href]
    · exact hR _ _ hap hbp hparent
  rw [display_eq a, display_eq b, hparent, hR _ _ hai hbi h.index, h.ty, h.storeId]

/-- Equal values that share a heap read the same in messages. So faults that quote a value cannot
tell which of two equal values was decided. -/
theorem SymValue.display_eq_of_equalWithin {levels : Nat} {v w : SymValue} (hv : v.SharedIn heap)
    (hw : w.SharedIn heap) (h : v.equalWithin levels w = true) : v.display = w.display := by
  induction levels generalizing v w with
  | zero => cases h
  | succ levels ih =>
    cases equalWithin_succ.1 h with
    | scalar s => rfl
    | undef ty => rfl
    | poison ty => rfl
    | void => rfl
    | aggregate kind members =>
      rw [sharedIn_aggregate] at hv hw
      rw [display_aggregate, display_aggregate, displayAll_eq_map, displayAll_eq_map,
        map_eq_of_forall₂ (forall₂_of_mem members fun a ha b hb => ih (hv a ha) (hw b hb))]
    | binary op left right =>
      rw [sharedIn_binary] at hv hw
      rw [display_binary, display_binary, ih hv.1 hw.1 left, ih hv.2 hw.2 right]
    | cast op source target value =>
      rw [sharedIn_cast] at hv hw
      rw [display_cast, display_cast, ih hv hw value]
    | select cond ifTrue ifFalse =>
      rw [sharedIn_select] at hv hw
      rw [display_select, display_select, ih hv.1 hw.1 cond, ih hv.2.1 hw.2.1 ifTrue,
        ih hv.2.2 hw.2.2 ifFalse]
    | extract path whole =>
      rw [sharedIn_extract] at hv hw
      rw [display_extract, display_extract, ih hv hw whole]
    | insert path whole element =>
      rw [sharedIn_insert] at hv hw
      rw [display_insert, display_insert, ih hv.1 hw.1 whole, ih hv.2 hw.2 element]
    | byte alike =>
      rw [sharedIn_byte] at hv hw
      exact SymByte.display_eq_of_alikeBy (fun _ _ => ih) hv hw alike
    | concat ty bytes =>
      rw [sharedIn_concat] at hv hw
      rw [display_concat, display_concat, SymByte.displayAll_eq_map, SymByte.displayAll_eq_map,
        map_eq_of_forall₂ (forall₂_of_mem bytes fun a ha b hb =>
          SymByte.display_eq_of_alikeBy (fun _ _ => ih) (hv a ha) (hw b hb))]

end SymbolicBytes
