import SymbolicBytes.Proofs.ByteClasses
import SymbolicBytes.Proofs.Sharing
/-!
# Deciding equal values

Values that share a heap and are equal, to no more levels than entanglement looks at, are decided
alike: with the same result and with the same fault (`concretizeWithin_congr`). In particular the
parents of entangled bytes are (`decide_parent_of_entangled`), so it does not matter which byte of a
class its parent is taken from.

Equality is a congruence for every way of building a value. The one hard case is that of bytes:
there the two lists must be grouped alike, for which entanglement has to be an equivalence.
-/

namespace SymbolicBytes

variable {heap : ParentRef → SymValue} {m : Nat}

/-! ## Bytes that agree -/

/-- Two bytes on one heap that agree, their parents and positions to this many levels. -/
structure SymByte.Agree (heap : ParentRef → SymValue) (m : Nat) (a b : SymByte) : Prop where
  /-- the references of the first stand for parents of the heap -/
  left : a.SharedIn heap
  /-- the references of the second stand for parents of the heap -/
  right : b.SharedIn heap
  /-- they are built alike -/
  alike : a.AlikeBy (fun v w => v.equalWithin m w = true) b

namespace SymByte.Agree

variable {a b a' b' : SymByte}

theorem entangled (h : a.Agree heap m b) (hm : m ≤ depthLimit + 1) : a.entangled b = true :=
  entangled_iff.2 ⟨h.alike.storeId, h.alike.parent.imp_right (SymValue.equalWithin_mono hm)⟩

/-- Bytes are entangled with each other exactly if the bytes that they agree with are. Equality has
to be transitive for that, across up to three comparisons, which it is on a heap. -/
theorem entangled_congr (hm : m ≤ depthLimit + 1) (h : a.Agree heap m b) (h' : a'.Agree heap m b') :
    a.entangled a' = b.entangled b' := by
  rw [Bool.eq_iff_iff]
  constructor
  · intro haa'
    have hba' := entangled_trans h.right h.left h'.left (entangled_symm (h.entangled hm)) haa'
    exact entangled_trans h.right h'.left h'.right hba' (h'.entangled hm)
  · intro hbb'
    have hab' := entangled_trans h.left h.right h'.right (h.entangled hm) hbb'
    exact entangled_trans h.left h'.right h'.left hab' (entangled_symm (h'.entangled hm))

/-- Positions that are equal are written alike, or neither is written out. -/
theorem literalIndex?_congr (h : a.Agree heap m b) : a.literalIndex? = b.literalIndex? := by
  have hindex := h.alike.index
  obtain ⟨p, r, t, i, s⟩ := a
  obtain ⟨p', r', t', i', s'⟩ := b
  cases m with
  | zero => cases hindex
  | succ m => cases SymValue.equalWithin_succ.1 hindex <;> rfl

end SymByte.Agree

/-! ## One level of the walk -/

/-- Whether a walk decides values alike that share a heap and are equal to this many levels. -/
def DecidesAlike (heap : ParentRef → SymValue) (m : Nat) (decide : SymValue → Outcome Value) :
    Prop :=
  ∀ v w : SymValue, v.SharedIn heap → w.SharedIn heap → v.equalWithin m w = true →
    decide v = decide w

namespace DecidesAlike

variable {decide : SymValue → Outcome Value} {a b : SymByte}

theorem parent (hd : DecidesAlike heap m decide) (ha : a.SharedIn heap) (hb : b.SharedIn heap)
    (h : a.ref = b.ref ∨ a.parent.equalWithin m b.parent = true) :
    decide a.parent = decide b.parent := by
  rcases h with href | hparent
  · rw [SymByte.parent_eq_of_ref ha hb href]
  · exact hd _ _ (SymByte.sharedIn_iff.1 ha).2.1 (SymByte.sharedIn_iff.1 hb).2.1 hparent

theorem index (hd : DecidesAlike heap m decide) (h : a.Agree heap m b) :
    decide a.index = decide b.index :=
  hd _ _ (SymByte.sharedIn_iff.1 h.left).2.2 (SymByte.sharedIn_iff.1 h.right).2.2 h.alike.index

theorem interchangeable (hd : DecidesAlike heap m decide) (h : a.Agree heap m b) :
    Machine.Interchangeable decide a b :=
  ⟨hd.parent h.left h.right h.alike.parent, hd.index h, h.alike.ty⟩

end DecidesAlike

namespace Machine

variable {machine : Machine} {decide : SymValue → Outcome Value}

/-- Of bytes that agree, either none are one whole store or both are, of parents that agree. So the
short cut for whole stores is taken on both sides or on neither. -/
theorem intactParent?_congr (machine : Machine) (hm : m ≤ depthLimit + 1) {as bs : List SymByte}
    (h : List.Forall₂ (SymByte.Agree heap m) as bs) (ty : Ty) :
    machine.intactParent? as ty = none ∧ machine.intactParent? bs ty = none ∨
      ∃ a b : SymByte, a.Agree heap m b ∧ machine.intactParent? as ty = some a.parent ∧
        machine.intactParent? bs ty = some b.parent := by
  cases h with
  | nil => exact .inl ⟨rfl, rfl⟩
  | @cons a b as bs hab hrest =>
    -- every byte passes the check against the first of its list or fails it in both
    have hall := all_zipIdx_congr
      (f := fun x => x.1.entangled a && x.1.ty == b.ty && x.1.literalIndex? == some x.2)
      (g := fun x => x.1.entangled b && x.1.ty == b.ty && x.1.literalIndex? == some x.2)
      ((List.Forall₂.cons hab hrest).imp fun c d hcd i => by
        simp only [hcd.entangled_congr hm hab, hcd.alike.ty, hcd.literalIndex?_congr]) 0
    simp only [intactParent?, hall, hab.alike.ty, List.length_cons, hrest.length_eq]
    split
    · exact .inr ⟨a, b, hab, rfl, rfl⟩
    · exact .inl ⟨rfl, rfl⟩

theorem valueOfBytesBy_congr (hm : m ≤ depthLimit + 1) (hd : DecidesAlike heap m decide)
    {as bs : List SymByte} (h : List.Forall₂ (SymByte.Agree heap m) as bs) (ty : Ty) :
    machine.valueOfBytesBy decide as ty = machine.valueOfBytesBy decide bs ty :=
  valueOfBytesBy_eq_of_forall₂ (fun _ _ hab => hd.interchangeable hab)
    (fun _ _ hab _ _ hab' => hab.entangled_congr hm hab') h ty

/-- One level of the walk decides values alike that are built alike. This is the step: it takes
values directly inside that are equal to some levels to a value around them. -/
theorem concretizeBy_congr (hm : m ≤ depthLimit + 1) (hd : DecidesAlike heap m decide)
    {v w : SymValue} (hv : v.SharedIn heap) (hw : w.SharedIn heap)
    (h : v.AlikeBy (fun v w => v.equalWithin m w = true) w) :
    machine.concretizeBy decide v = machine.concretizeBy decide w := by
  cases h with
  | scalar s => rfl
  | undef ty => rfl
  | poison ty => rfl
  | void => rfl
  | aggregate kind members =>
    rw [SymValue.sharedIn_aggregate] at hv hw
    have hmembers := Outcome.mapM_congr
      (forall₂_of_mem members fun a ha b hb hab => hd a b (hv a ha) (hw b hb) hab)
    simp only [concretizeBy, hmembers]
  | binary op left right =>
    rw [SymValue.sharedIn_binary] at hv hw
    simp only [concretizeBy, hd _ _ hv.1 hw.1 left, hd _ _ hv.2 hw.2 right]
  | cast op source target value =>
    rw [SymValue.sharedIn_cast] at hv hw
    simp only [concretizeBy, hd _ _ hv hw value]
  | @select a b c d e f cond ifTrue ifFalse =>
    rw [SymValue.sharedIn_select] at hv hw
    -- the same branch is taken, whichever it is
    have hbranch : ∀ taken : Bool,
        decide (if taken then b else c) = decide (if taken then e else f) := by
      intro taken
      cases taken with
      | true => exact hd _ _ hv.2.1 hw.2.1 ifTrue
      | false => exact hd _ _ hv.2.2 hw.2.2 ifFalse
    simp only [concretizeBy, selectBy, hd _ _ hv.1 hw.1 cond, hd _ _ hv.2.1 hw.2.1 ifTrue,
      hd _ _ hv.2.2 hw.2.2 ifFalse, hbranch]
  | extract path whole =>
    rw [SymValue.sharedIn_extract] at hv hw
    simp only [concretizeBy, hd _ _ hv hw whole]
  | insert path whole element =>
    rw [SymValue.sharedIn_insert] at hv hw
    simp only [concretizeBy, hd _ _ hv.1 hw.1 whole, hd _ _ hv.2 hw.2 element]
  | byte alike =>
    rw [SymValue.sharedIn_byte] at hv hw
    have hdisplay := SymByte.display_eq_of_alikeBy
      (fun _ _ => SymValue.display_eq_of_equalWithin) hv hw alike
    simp only [concretizeBy, hdisplay]
  | concat ty bytes =>
    rw [SymValue.sharedIn_concat] at hv hw
    have hagree := forall₂_of_mem bytes
      fun a ha b hb hab => (⟨hv a ha, hw b hb, hab⟩ : a.Agree heap m b)
    simp only [concretizeBy]
    rcases intactParent?_congr machine hm hagree ty with ⟨ha, hb⟩ | ⟨a, b, hab, ha, hb⟩
    · -- neither list is one whole store
      simp only [ha, hb, valueOfBytesBy_congr hm hd hagree ty]
    · simp only [ha, hb, hd.parent hab.left hab.right hab.alike.parent]

/-- The whole walk decides values alike that share a heap and are equal. The levels of the walk and
those of the comparison are counted apart; the induction is on the first, for all of the second up
to what entanglement looks at. -/
theorem concretizeWithin_congr (machine : Machine) (heap : ParentRef → SymValue) (levels : Nat) :
    ∀ m ≤ depthLimit + 1, DecidesAlike heap m (machine.concretizeWithin levels) := by
  induction levels with
  | zero =>
    intro m _ v w _ _ _
    rfl
  | succ levels ih =>
    intro m hm v w hv hw h
    cases m with
    | zero => cases h
    | succ m =>
      have hm' : m ≤ depthLimit + 1 := Nat.le_of_succ_le hm
      exact concretizeBy_congr hm' (ih m hm') hv hw (SymValue.equalWithin_succ.1 h)

/-- Entangled bytes that share a heap have parents that are decided alike, so it does not matter
which of them the parent of a class is taken from. -/
theorem decide_parent_of_entangled {a b : SymByte} (ha : a.SharedIn heap) (hb : b.SharedIn heap)
    (h : a.entangled b = true) (levels : Nat) :
    machine.concretizeWithin levels a.parent = machine.concretizeWithin levels b.parent :=
  (machine.concretizeWithin_congr heap levels (depthLimit + 1) (Nat.le_refl _)).parent ha hb
    (SymByte.entangled_iff.1 h).2

/-- Equal values are decided alike, at every depth, whatever they share inside: with the same value
or with the same fault. -/
theorem concretizeWithin_eq_of_equal (machine : Machine) {v w : SymValue} (hv : v.SharedIn heap)
    (hw : w.SharedIn heap) (h : v.equal w = true) (depth : Nat) :
    machine.concretizeWithin (levelsBelow depth) v =
      machine.concretizeWithin (levelsBelow depth) w :=
  machine.concretizeWithin_congr heap _ _ (Nat.le_refl _) v w hv hw h

/-! ## One load, shared in two ways -/

/-- One parent, known by the store that it is from and by another reference as well. -/
def twiceKnownHeap : ParentRef → SymValue
  | .stored 1 | .given 0 =>
    .binary (.int (.add false false)) (.undef (.int 32)) (.scalar (.int ⟨.i32, 0x08070605⟩))
  | _ => .void

/-- The four bytes of that parent as a vector, with references as listed. -/
def loadUnder (refs : List ParentRef) : SymValue :=
  .concat (refs.zipIdx.map fun (ref, i) => ⟨twiceKnownHeap ref, ref, .int 32, .iptr i, 1⟩)
    (.vector 4 (.int 8))

/-- Two loads of the same four bytes, of which one knows the parent by two references. They are
equal, as the parents are, and are decided alike. -/
theorem concretizeWithin_loadUnder :
    (loadUnder [.stored 1, .stored 1, .stored 1, .stored 1]).equal
        (loadUnder [.stored 1, .given 0, .given 0, .stored 1]) = true ∧
      (standard .standard).concretizeWithin (levelsBelow 7)
          (loadUnder [.stored 1, .stored 1, .stored 1, .stored 1]) =
        (standard .standard).concretizeWithin (levelsBelow 7)
          (loadUnder [.stored 1, .given 0, .given 0, .stored 1]) ∧
      (standard .standard).concretizeWithin (levelsBelow 7)
          (loadUnder [.stored 1, .stored 1, .stored 1, .stored 1]) =
        .ok (.vector [.int ⟨.i8, 5⟩, .int ⟨.i8, 6⟩, .int ⟨.i8, 7⟩, .int ⟨.i8, 8⟩]) := by
  have hshared : ∀ refs : List ParentRef, (∀ ref ∈ refs, ref = .stored 1 ∨ ref = .given 0) →
      (loadUnder refs).SharedIn twiceKnownHeap := by
    intro refs hrefs
    rw [loadUnder, SymValue.sharedIn_concat]
    intro b hb
    obtain ⟨⟨ref, i⟩, hmem, rfl⟩ := List.mem_map.1 hb
    rcases hrefs ref (List.fst_mem_of_mem_zipIdx hmem) with rfl | rfl <;>
      simp [SymByte.sharedIn_iff, twiceKnownHeap, SymValue.SharedIn, SymValue.SharedByte]
  have hequal : (loadUnder [.stored 1, .stored 1, .stored 1, .stored 1]).equal
      (loadUnder [.stored 1, .given 0, .given 0, .stored 1]) = true := by rfl
  exact ⟨hequal,
    concretizeWithin_eq_of_equal _ (hshared _ (by simp)) (hshared _ (by simp)) hequal 7, by rfl⟩

end Machine

end SymbolicBytes
