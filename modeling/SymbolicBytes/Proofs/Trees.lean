import SymbolicBytes.Proofs.Sharing
/-!
# Symbolic values as trees

`SymValue.tree` forgets what a symbolic value shares: two values are the same tree if they are built
alike all the way down, with the same bits in their scalars, whatever their bytes know their parents
by. `SymValue.height` says how deep a tree is, the parents and the positions of bytes included.

Comparing two values walks over their trees as far as the limit, and does not look at parents that
are known to be one. So equal values are the same tree (`tree_eq_of_equalWithin`), a tree within the
limit is equal to any copy of itself (`equalWithin_of_tree_eq`), and beyond the limit only what is
shared can be equal (`height_lt_of_equalWithin`). That entanglement is an equivalence all the same
rests on the heap that the references stand for; `comparesTrees` is the whole account.
-/

namespace SymbolicBytes

/-! ## Trees -/

mutual

/-- The value with nothing shared: all references to parents are the same. -/
def SymValue.tree : SymValue → SymValue
  | .scalar s => .scalar s
  | .undef ty => .undef ty
  | .poison ty => .poison ty
  | .void => .void
  | .aggregate kind members => .aggregate kind (SymValue.trees members)
  | .binary op left right => .binary op left.tree right.tree
  | .cast op source value target => .cast op source value.tree target
  | .select cond ifTrue ifFalse => .select cond.tree ifTrue.tree ifFalse.tree
  | .extract whole path => .extract whole.tree path
  | .insert whole element path => .insert whole.tree element.tree path
  | .byte b => .byte b.tree
  | .concat bytes ty => .concat (SymByte.trees bytes) ty

/-- The listed values with nothing shared. -/
def SymValue.trees : List SymValue → List SymValue
  | [] => []
  | v :: vs => v.tree :: SymValue.trees vs

/-- The byte with nothing shared. -/
def SymByte.tree : SymByte → SymByte
  | ⟨parent, _, ty, index, storeId⟩ => ⟨parent.tree, .given 0, ty, index.tree, storeId⟩

/-- The listed bytes with nothing shared. -/
def SymByte.trees : List SymByte → List SymByte
  | [] => []
  | b :: bs => b.tree :: SymByte.trees bs

end

mutual

/-- How many levels there are below the top of the value, through members and operands and through
the parents and the positions of bytes. -/
def SymValue.height : SymValue → Nat
  | .scalar _ | .undef _ | .poison _ | .void => 0
  | .aggregate _ members => SymValue.heights members
  | .binary _ left right => max (left.height + 1) (right.height + 1)
  | .cast _ _ value _ => value.height + 1
  | .select cond ifTrue ifFalse =>
    max (cond.height + 1) (max (ifTrue.height + 1) (ifFalse.height + 1))
  | .extract whole _ => whole.height + 1
  | .insert whole element _ => max (whole.height + 1) (element.height + 1)
  | .byte b => b.height
  | .concat bytes _ => SymByte.heights bytes

/-- How many levels there are below a value of which the listed ones are directly inside. -/
def SymValue.heights : List SymValue → Nat
  | [] => 0
  | v :: vs => max (v.height + 1) (SymValue.heights vs)

/-- How many levels the parent and the position of the byte go down. -/
def SymByte.height : SymByte → Nat
  | ⟨parent, _, _, index, _⟩ => max (parent.height + 1) (index.height + 1)

/-- How many levels there are below a value that is made of the listed bytes. -/
def SymByte.heights : List SymByte → Nat
  | [] => 0
  | b :: bs => max b.height (SymByte.heights bs)

end

theorem SymValue.heights_le_iff {vs : List SymValue} {levels : Nat} :
    heights vs ≤ levels ↔ ∀ v ∈ vs, v.height < levels := by
  induction vs with
  | nil => simp [heights]
  | cons v vs ih => simp only [heights, Nat.max_le, ih, List.forall_mem_cons, Nat.add_one_le_iff]

theorem SymByte.heights_le_iff {bs : List SymByte} {levels : Nat} :
    heights bs ≤ levels ↔ ∀ b ∈ bs, b.height ≤ levels := by
  induction bs with
  | nil => simp [heights]
  | cons b bs ih => simp only [heights, Nat.max_le, ih, List.forall_mem_cons]

theorem SymByte.height_le_iff {b : SymByte} {levels : Nat} :
    b.height ≤ levels ↔ b.parent.height < levels ∧ b.index.height < levels := by
  cases b
  simp only [height, Nat.max_le, Nat.add_one_le_iff]

theorem SymByte.tree_eq_iff {a b : SymByte} :
    a.tree = b.tree ↔ a.parent.tree = b.parent.tree ∧ a.ty = b.ty ∧ a.index.tree = b.index.tree ∧
      a.storeId = b.storeId := by
  cases a
  cases b
  simp only [tree, SymByte.mk.injEq, true_and]

theorem SymValue.trees_eq_iff {vs ws : List SymValue} :
    trees vs = trees ws ↔ List.Forall₂ (fun v w => v.tree = w.tree) vs ws := by
  induction vs generalizing ws with
  | nil => cases ws <;> simp [trees]
  | cons v vs ih => cases ws <;> simp [trees, ih]

theorem SymByte.trees_eq_iff {as bs : List SymByte} :
    trees as = trees bs ↔ List.Forall₂ (fun a b => a.tree = b.tree) as bs := by
  induction as generalizing bs with
  | nil => cases bs <;> simp [trees]
  | cons a as ih => cases bs <;> simp [trees, ih]

/-! ## Equal values are the same tree -/

variable {heap : ParentRef → SymValue} {v w : SymValue} {levels : Nat}

theorem SymByte.tree_eq_of_alikeBy {R : SymValue → SymValue → Prop}
    (hR : ∀ v w : SymValue, v.SharedIn heap → w.SharedIn heap → R v w → v.tree = w.tree)
    {a b : SymByte} (ha : a.SharedIn heap) (hb : b.SharedIn heap) (h : a.AlikeBy R b) :
    a.tree = b.tree := by
  obtain ⟨-, hap, hai⟩ := SymByte.sharedIn_iff.1 ha
  obtain ⟨-, hbp, hbi⟩ := SymByte.sharedIn_iff.1 hb
  refine tree_eq_iff.2 ⟨?_, h.ty, hR _ _ hai hbi h.index, h.storeId⟩
  rcases h.parent with href | hparent
  · rw [parent_eq_of_ref ha hb href]
  · exact hR _ _ hap hbp hparent

/-- Equal values that share a heap are the same tree, also where the comparison skipped a parent
because of its reference. -/
theorem SymValue.tree_eq_of_equalWithin (hv : v.SharedIn heap) (hw : w.SharedIn heap)
    (h : v.equalWithin levels w = true) : v.tree = w.tree := by
  induction levels generalizing v w with
  | zero => cases h
  | succ levels ih =>
    cases equalWithin_succ.1 h with
    | scalar s => rfl
    | undef ty => rfl
    | poison ty => rfl
    | void => rfl
    | aggregate kind members =>
      rw [sharedIn_aggregate] at hv hw
      rw [tree, tree, trees_eq_iff.2
        (forall₂_of_mem members fun a ha b hb => ih (hv a ha) (hw b hb))]
    | binary op left right =>
      rw [sharedIn_binary] at hv hw
      rw [tree, tree, ih hv.1 hw.1 left, ih hv.2 hw.2 right]
    | cast op source target value =>
      rw [sharedIn_cast] at hv hw
      rw [tree, tree, ih hv hw value]
    | select cond ifTrue ifFalse =>
      rw [sharedIn_select] at hv hw
      rw [tree, tree, ih hv.1 hw.1 cond, ih hv.2.1 hw.2.1 ifTrue, ih hv.2.2 hw.2.2 ifFalse]
    | extract path whole =>
      rw [sharedIn_extract] at hv hw
      rw [tree, tree, ih hv hw whole]
    | insert path whole element =>
      rw [sharedIn_insert] at hv hw
      rw [tree, tree, ih hv.1 hw.1 whole, ih hv.2 hw.2 element]
    | byte alike =>
      rw [sharedIn_byte] at hv hw
      rw [tree, tree, SymByte.tree_eq_of_alikeBy (fun _ _ => ih) hv hw alike]
    | concat ty bytes =>
      rw [sharedIn_concat] at hv hw
      rw [tree, tree, SymByte.trees_eq_iff.2 (forall₂_of_mem bytes fun a ha b hb =>
        SymByte.tree_eq_of_alikeBy (fun _ _ => ih) (hv a ha) (hw b hb))]

/-! ## The same tree is equal to itself -/

theorem SymByte.alikeBy_of_tree_eq {a b : SymByte} (h : a.tree = b.tree)
    (hheight : a.height ≤ levels) :
    a.AlikeBy (fun v w => v.tree = w.tree ∧ v.height < levels) b := by
  obtain ⟨hparent, hty, hindex, hid⟩ := tree_eq_iff.1 h
  obtain ⟨hparent', hindex'⟩ := height_le_iff.1 hheight
  exact ⟨hid, hty, .inr ⟨hparent, hparent'⟩, hindex, hindex'⟩

/-- Values that are the same tree are built alike, of values that are and that are less deep. The
height is carried along, so that the induction on levels can go on with one level less. -/
theorem SymValue.alikeBy_of_tree_eq (h : v.tree = w.tree) (hheight : v.height ≤ levels) :
    v.AlikeBy (fun v w => v.tree = w.tree ∧ v.height < levels) w := by
  -- trees of different kinds of values differ, so only the pairs of one kind are left
  cases v <;> cases w <;> simp only [tree, reduceCtorEq] at h
  case scalar.scalar => exact h ▸ .scalar _
  case undef.undef => exact h ▸ .undef _
  case poison.poison => exact h ▸ .poison _
  case void.void => exact .void
  case aggregate.aggregate k vs l ws =>
    rw [height, heights_le_iff] at hheight
    rw [aggregate.injEq, trees_eq_iff] at h
    obtain ⟨rfl, hmembers⟩ := h
    exact .aggregate k (forall₂_of_mem hmembers fun v hv w _ hvw => ⟨hvw, hheight v hv⟩)
  case binary.binary op a b p c d =>
    simp only [height, Nat.max_le, Nat.add_one_le_iff] at hheight
    rw [binary.injEq] at h
    obtain ⟨rfl, hleft, hright⟩ := h
    exact .binary op ⟨hleft, hheight.1⟩ ⟨hright, hheight.2⟩
  case cast.cast op s v t p s' w t' =>
    rw [height, Nat.add_one_le_iff] at hheight
    rw [cast.injEq] at h
    obtain ⟨rfl, rfl, hvalue, rfl⟩ := h
    exact .cast op s t ⟨hvalue, hheight⟩
  case select.select a b c d e f =>
    simp only [height, Nat.max_le, Nat.add_one_le_iff] at hheight
    rw [select.injEq] at h
    exact .select ⟨h.1, hheight.1⟩ ⟨h.2.1, hheight.2.1⟩ ⟨h.2.2, hheight.2.2⟩
  case extract.extract v p w q =>
    rw [height, Nat.add_one_le_iff] at hheight
    rw [extract.injEq] at h
    obtain ⟨hwhole, rfl⟩ := h
    exact .extract p ⟨hwhole, hheight⟩
  case insert.insert v e p w f q =>
    simp only [height, Nat.max_le, Nat.add_one_le_iff] at hheight
    rw [insert.injEq] at h
    obtain ⟨hwhole, helement, rfl⟩ := h
    exact .insert p ⟨hwhole, hheight.1⟩ ⟨helement, hheight.2⟩
  case byte.byte a b =>
    rw [height] at hheight
    rw [byte.injEq] at h
    exact .byte (SymByte.alikeBy_of_tree_eq h hheight)
  case concat.concat as s bs t =>
    rw [height, SymByte.heights_le_iff] at hheight
    rw [concat.injEq, SymByte.trees_eq_iff] at h
    obtain ⟨hbytes, rfl⟩ := h
    exact .concat s (forall₂_of_mem hbytes fun a ha b _ hab =>
      SymByte.alikeBy_of_tree_eq hab (hheight a ha))

/-- The same tree is equal to itself, if there are enough levels; references need not agree for
that. -/
theorem SymValue.equalWithin_of_tree_eq (h : v.tree = w.tree) (hheight : v.height < levels) :
    v.equalWithin levels w = true := by
  induction levels generalizing v w with
  | zero => cases hheight
  | succ levels ih =>
    exact equalWithin_succ.2
      ((alikeBy_of_tree_eq h (Nat.le_of_lt_succ hheight)).imp fun _ _ hab => ih hab.1 hab.2)

/-! ## Beyond the limit -/

/-- Whether the value is not known byte by byte, and no byte itself. -/
def SymValue.NotBytes : SymValue → Prop
  | .byte _ | .concat _ _ => False
  | _ => True

/-- A value without bytes, so without anything shared, is equal only to as many levels as it has.
Beyond the limit such a value is not even equal to itself. -/
theorem SymValue.height_lt_of_equalWithin (hv : v.AllParts NotBytes)
    (h : v.equalWithin levels w = true) : v.height < levels := by
  induction levels generalizing v w with
  | zero => cases h
  | succ levels ih =>
    cases equalWithin_succ.1 h with
    | scalar s => exact Nat.succ_pos levels
    | undef ty => exact Nat.succ_pos levels
    | poison ty => exact Nat.succ_pos levels
    | void => exact Nat.succ_pos levels
    | aggregate kind members =>
      refine Nat.lt_succ_of_le (heights_le_iff.2 fun v hmem => ?_)
      obtain ⟨w, -, hvw⟩ := exists_mem_of_forall₂ members hmem
      exact ih ((allParts_aggregate.1 hv).2 v hmem) hvw
    | binary op left right =>
      obtain ⟨-, hl, hr⟩ := allParts_binary.1 hv
      simp only [height, Nat.max_lt, Nat.add_lt_add_iff_right]
      exact ⟨ih hl left, ih hr right⟩
    | cast op source target value =>
      exact Nat.succ_lt_succ (ih (allParts_cast.1 hv).2 value)
    | select cond ifTrue ifFalse =>
      obtain ⟨-, hc, ht, hf⟩ := allParts_select.1 hv
      simp only [height, Nat.max_lt, Nat.add_lt_add_iff_right]
      exact ⟨ih hc cond, ih ht ifTrue, ih hf ifFalse⟩
    | extract path whole =>
      exact Nat.succ_lt_succ (ih (allParts_extract.1 hv).2 whole)
    | insert path whole element =>
      obtain ⟨-, hwhole, helement⟩ := allParts_insert.1 hv
      simp only [height, Nat.max_lt, Nat.add_lt_add_iff_right]
      exact ⟨ih hwhole whole, ih helement element⟩
    -- bytes with one reference are equal without a look at how deep they are
    | byte alike => exact (SymByte.allParts_iff.1 hv).1.elim
    | concat ty bytes => exact (allParts_concat.1 hv).1.elim

/-! ## What there is to know -/

/-- What is to be shown of comparing values and bytes whose references stand for the parents of a
heap. -/
structure ComparesTrees (heap : ParentRef → SymValue) : Prop where
  /-- equal values are the same tree -/
  tree_eq : ∀ v w : SymValue, v.SharedIn heap → w.SharedIn heap → v.equal w = true →
    v.tree = w.tree
  /-- a tree within the limit is equal to itself, whatever is shared in it -/
  equal : ∀ v w : SymValue, v.tree = w.tree → v.height ≤ depthLimit → v.equal w = true
  /-- a value beyond the limit in which nothing is shared is equal to nothing -/
  tooDeep : ∀ v w : SymValue, v.AllParts SymValue.NotBytes → depthLimit < v.height →
    v.equal w = false
  /-- entanglement is an equivalence, however deep the parents of the bytes are -/
  entangled : Equivalence fun a b : { b : SymByte // b.SharedIn heap } => a.1.entangled b.1 = true

/-- Comparing values and bytes that share a heap is comparing their trees, within the limit and
where parents are shared beyond it. Entanglement is an equivalence at every depth, since bytes of
one parent are never compared as far as the limit. -/
theorem comparesTrees (heap : ParentRef → SymValue) : ComparesTrees heap where
  tree_eq _ _ hv hw h := SymValue.tree_eq_of_equalWithin hv hw h
  equal _ _ h hheight := SymValue.equalWithin_of_tree_eq h (Nat.lt_succ_of_le hheight)
  tooDeep v w hv hheight := by
    rw [Bool.eq_false_iff]
    intro h
    have hlt := SymValue.height_lt_of_equalWithin hv h
    exact Nat.not_lt_of_le (Nat.le_of_lt_succ hlt) hheight
  entangled :=
    ⟨fun _ => SymByte.entangled_iff.2 ⟨rfl, .inl rfl⟩, SymByte.entangled_symm,
      fun {a b c} => SymByte.entangled_trans a.2 b.2 c.2⟩

/-- An undefined number, cast to its own type this many times. -/
def recast : Nat → SymValue
  | 0 => .undef (.int 32)
  | n + 1 => .cast .bitcast (.int 32) (recast n) (.int 32)

theorem height_recast (n : Nat) : (recast n).height = n := by
  induction n with
  | zero => rfl
  | succ n ih => rw [recast, SymValue.height, ih]

/-- What holds of every such cast holds everywhere inside one of them. -/
theorem allParts_recast {p : SymValue → Prop} (h : ∀ n, p (recast n)) (n : Nat) :
    (recast n).AllParts p := by
  induction n with
  | zero => exact SymValue.allParts_undef.2 (h 0)
  | succ n ih => exact SymValue.allParts_cast.2 ⟨h (n + 1), ih⟩

/-- A number that is cast more often than a comparison looks, and two loads of its bytes. -/
def deepHeap : ParentRef → SymValue
  | .given 0 => recast 600
  | .given 1 | .given 2 =>
    .concat (SymByte.run (recast 600) (.given 0) (.int 32) 4 4) (.int 32)
  | _ => .void

/-- A byte of a parent of that heap. -/
def deepByte (parent index : Nat) : SymByte :=
  ⟨deepHeap (.given parent), .given parent, .int 32, .iptr index, 5⟩

/-- Bytes of one parent and bytes of parents that share what is deep in them are entangled, though
what is deep is not equal to itself. -/
theorem comparesTrees_deepHeap :
    (deepByte 1 0).entangled (deepByte 1 3) = true ∧
      (deepByte 1 3).entangled (deepByte 2 1) = true ∧
      (deepByte 1 0).entangled (deepByte 2 1) = true ∧
      (recast 512).equal (recast 512) = true ∧ (recast 600).equal (recast 600) = false := by
  have hdeep : (recast 600).SharedIn deepHeap :=
    allParts_recast (fun n => by cases n <;> trivial) 600
  have hload : (deepHeap (.given 1)).SharedIn deepHeap := by
    rw [deepHeap, SymValue.sharedIn_concat]
    intro b hb
    obtain ⟨i, -, rfl⟩ := List.mem_map.1 hb
    exact SymByte.sharedIn_iff.2 ⟨rfl, hdeep, SymValue.allParts_scalar.2 trivial⟩
  have hbyte : ∀ parent index, parent = 1 ∨ parent = 2 →
      (deepByte parent index).SharedIn deepHeap := by
    rintro parent index (rfl | rfl) <;>
      exact SymByte.sharedIn_iff.2 ⟨rfl, hload, SymValue.allParts_scalar.2 trivial⟩
  have hab : (deepByte 1 0).entangled (deepByte 1 3) = true := by rfl
  have hbc : (deepByte 1 3).entangled (deepByte 2 1) = true := by rfl
  have hnotBytes : (recast 600).AllParts SymValue.NotBytes :=
    allParts_recast (fun n => by cases n <;> trivial) 600
  exact ⟨hab, hbc,
    (comparesTrees deepHeap).entangled.trans (x := ⟨_, hbyte 1 0 (.inl rfl)⟩)
      (y := ⟨_, hbyte 1 3 (.inl rfl)⟩) (z := ⟨_, hbyte 2 1 (.inr rfl)⟩) hab hbc,
    (comparesTrees deepHeap).equal _ _ rfl (Nat.le_of_eq (height_recast 512)),
    (comparesTrees deepHeap).tooDeep _ _ hnotBytes (by rw [height_recast]; decide)⟩

end SymbolicBytes
