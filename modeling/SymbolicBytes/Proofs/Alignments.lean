import Mathlib.Data.List.Pairwise
import Mathlib.Order.Bounds.Basic
import SymbolicBytes.Proofs.Sizes
/-!
# Alignments of nested types

The alignment of a type comes from the parts that it shows (`Ty.Shows`): those that are reached
through arrays, vectors and structs, without going into a packed struct. `Target.Asks` says what
each of them asks for, and the type has the strictest of that (`isGreatest_asked`). For an integer
or a float it is the alignment under the width that `AlignTable.Governs` its own; a table tells it
unless it has no entries at all, and then nothing that shows such a part has an alignment
(`alignment?_eq_none_iff`).
-/

namespace SymbolicBytes

/-! ## Tables -/

namespace AlignTable

variable {table : AlignTable} {width key align : Nat}

/-- The widths that are listed. -/
def widths (table : AlignTable) : Set Nat := { key | ∃ align, (key, align) ∈ table.entries }

/-- Whether a listed width is the one whose alignment a width takes: the least that is no smaller,
or, where all are smaller, the greatest. -/
def Governs (table : AlignTable) (width key : Nat) : Prop :=
  IsLeast { k ∈ table.widths | width ≤ k } key ∨
    (∀ k ∈ table.widths, k < width) ∧ IsGreatest table.widths key

/-- Only one width governs a width. -/
theorem Governs.unique {other : Nat} (h : table.Governs width key)
    (h' : table.Governs width other) : key = other := by
  rcases h with h | ⟨hbeyond, h⟩
  · rcases h' with h' | ⟨hbeyond', -⟩
    · exact h.unique h'
    · exact absurd (hbeyond' key h.1.1) (Nat.not_lt_of_le h.1.2)
  · rcases h' with h' | ⟨-, h'⟩
    · exact absurd (hbeyond other h'.1.1) (Nat.not_lt_of_le h'.1.2)
    · exact h.unique h'

/-- A width is listed with one alignment. -/
theorem align_unique {other : Nat} (h : (key, align) ∈ table.entries)
    (h' : (key, other) ∈ table.entries) : align = other := by
  have hsame : ∀ d ∈ table.entries, ∀ e ∈ table.entries, d.1 = e.1 → d.2 = e.2 :=
    List.Pairwise.forall_of_forall_of_flip (fun _ _ _ => rfl)
      (table.ascending.imp fun hlt heq => absurd heq (Nat.ne_of_lt hlt))
      (table.ascending.imp fun hlt heq => absurd heq (Nat.ne_of_gt hlt))
  exact hsame _ h _ h' rfl

/-- The first entry that is wide enough is the narrowest such, as a table is in ascending order. -/
theorem isLeast_of_find? {e : Nat × Nat}
    (h : (table.entries.find? fun e => width ≤ e.1) = some e) :
    IsLeast { k ∈ table.widths | width ≤ k } e.1 := by
  obtain ⟨hwide, before, after, hsplit, hbefore⟩ := List.find?_eq_some_iff_append.1 h
  have hlow : width ≤ e.1 := of_decide_eq_true hwide
  have hlater : ∀ d ∈ after, e.1 < d.1 := by
    have hascending := table.ascending
    rw [hsplit] at hascending
    exact (List.pairwise_cons.1 (List.pairwise_append.1 hascending).2.1).1
  refine ⟨⟨⟨e.2, List.mem_of_find?_eq_some h⟩, hlow⟩, ?_⟩
  rintro k ⟨⟨align, hk⟩, hle⟩
  rw [hsplit] at hk
  rcases List.mem_append.1 hk with hk | hk
  · -- entries before it are too narrow
    have hnarrow := hbefore _ hk
    simp [hle] at hnarrow
  · rcases List.mem_cons.1 hk with rfl | hk
    · exact Nat.le_refl _
    · exact Nat.le_of_lt (hlater _ hk)

/-- The last entry is the widest. -/
theorem isGreatest_of_getLast? {e : Nat × Nat} (h : table.entries.getLast? = some e) :
    IsGreatest table.widths e.1 := by
  obtain ⟨before, hsplit⟩ := List.getLast?_eq_some_iff.1 h
  have hascending := table.ascending
  rw [hsplit] at hascending
  refine ⟨⟨e.2, List.mem_of_getLast? h⟩, ?_⟩
  rintro k ⟨align, hk⟩
  rw [hsplit] at hk
  rcases List.mem_append.1 hk with hk | hk
  · exact Nat.le_of_lt ((List.pairwise_append.1 hascending).2.2 _ hk e (List.mem_singleton_self e))
  · obtain rfl := List.mem_singleton.1 hk
    exact Nat.le_refl _

/-- A width takes the alignment of the width that governs it. A width beyond all entries takes that
of the widest. -/
theorem exists_governs (h : table.alignFor? width = some align) :
    ∃ key, table.Governs width key ∧ (key, align) ∈ table.entries := by
  obtain ⟨e, he, rfl⟩ := Option.map_eq_some_iff.1 h
  cases hfind : table.entries.find? fun e => width ≤ e.1 with
  | some d =>
    rw [hfind, Option.some_or] at he
    obtain rfl := Option.some.inj he
    exact ⟨d.1, .inl (isLeast_of_find? hfind), List.mem_of_find?_eq_some hfind⟩
  | none =>
    rw [hfind, Option.none_or] at he
    refine ⟨e.1, .inr ⟨?_, isGreatest_of_getLast? he⟩, List.mem_of_getLast? he⟩
    rintro k ⟨align, hk⟩
    simpa using List.find?_eq_none.1 hfind _ hk

/-- A table tells the alignment of a width by the one that governs it, and by nothing else. -/
theorem alignFor?_eq_some_iff :
    table.alignFor? width = some align ↔
      ∃ key, table.Governs width key ∧ (key, align) ∈ table.entries := by
  refine ⟨exists_governs, ?_⟩
  rintro ⟨key, hkey, hentry⟩
  cases halign : table.alignFor? width with
  | none =>
    rw [alignFor?_eq_none_iff] at halign
    rw [halign] at hentry
    cases hentry
  | some other =>
    obtain ⟨key', hkey', hentry'⟩ := exists_governs halign
    obtain rfl := hkey.unique hkey'
    rw [align_unique hentry hentry']

end AlignTable

/-! ## What a type shows -/

/-- The parts of a type that its alignment comes from: those reached through arrays, vectors and
structs without going into a packed struct. -/
inductive Ty.Shows : Ty → Ty → Prop where
  /-- a type shows itself -/
  | self (t : Ty) : Shows t t
  /-- arrays and vectors show what their elements do, also where they have none -/
  | element {kind : SequenceKind} {count : Nat} {element part : Ty} (h : Shows element part) :
    Shows (.sequence kind count element) part
  /-- structs show what their fields do -/
  | field {fields : List Ty} {field part : Ty} (hmem : field ∈ fields) (h : Shows field part) :
    Shows (.record .struct fields) part

namespace Ty

variable {t part : Ty}

theorem shows_atom_iff (h : t.aggregateKind? = none) : t.Shows part ↔ part = t := by
  refine ⟨?_, ?_⟩
  · rintro ⟨⟩ <;> first | rfl | cases h
  · rintro rfl
    exact .self _

theorem shows_sequence_iff {kind : SequenceKind} {count : Nat} {element : Ty} :
    (sequence kind count element).Shows part ↔
      part = sequence kind count element ∨ element.Shows part := by
  refine ⟨?_, ?_⟩
  · rintro (_ | h)
    · exact .inl rfl
    · exact .inr h
  · rintro (rfl | h)
    · exact .self _
    · exact .element h

theorem shows_struct_iff {fields : List Ty} :
    (record .struct fields).Shows part ↔
      part = record .struct fields ∨ ∃ field ∈ fields, field.Shows part := by
  refine ⟨?_, ?_⟩
  · rintro (_ | _ | ⟨hmem, h⟩)
    · exact .inl rfl
    · exact .inr ⟨_, hmem, h⟩
  · rintro (rfl | ⟨field, hmem, h⟩)
    · exact .self _
    · exact .field hmem h

theorem shows_packed_iff {fields : List Ty} :
    (record .packed fields).Shows part ↔ part = record .packed fields := by
  refine ⟨?_, ?_⟩
  · rintro ⟨⟩
    rfl
  · rintro rfl
    exact .self _

end Ty

/-! ## What the parts ask for -/

namespace Target

variable {target : Target} {t part : Ty} {align : Nat}

/-- The alignment that a part asks for which a type shows. Arrays and vectors ask for none of their
own. -/
inductive Asks (target : Target) : Ty → Nat → Prop where
  /-- integers ask for what the table has for their width -/
  | int {width key align : Nat} (hkey : target.intAligns.Governs width key)
      (hentry : (key, align) ∈ target.intAligns.entries) : Asks target (.int width) align
  /-- floats ask for what the table has for their width -/
  | float {kind : FloatKind} {key align : Nat} (hkey : target.floatAligns.Governs kind.bits key)
      (hentry : (key, align) ∈ target.floatAligns.entries) : Asks target (.float kind) align
  /-- pointers ask for their size -/
  | pointer : Asks target .pointer target.pointerSize
  /-- pointer-sized integers ask for the size of pointers -/
  | iptr : Asks target .iptr target.pointerSize
  /-- the type of a computation without result asks for nothing more than a byte -/
  | void : Asks target .void 1
  /-- nor do types that can only be named -/
  | special (kind : SpecialKind) : Asks target (.special kind) 1
  /-- nor do structs and packed structs themselves -/
  | record (kind : RecordKind) (fields : List Ty) : Asks target (.record kind fields) 1

/-- Whether a type is an integer or a float for which the table has no entries at all. -/
def Untold (target : Target) : Ty → Prop
  | .int _ => target.intAligns.entries = []
  | .float _ => target.floatAligns.entries = []
  | _ => False

/-- All alignments that the parts ask for which a type shows. -/
def asked (target : Target) (t : Ty) : Set Nat :=
  { align | ∃ part, t.Shows part ∧ target.Asks part align }

/-- A part that is no aggregate asks for the alignment that it has by itself. -/
theorem asks_atom_iff (h : t.aggregateKind? = none) :
    target.Asks t align ↔ target.alignment? t = some align := by
  cases t with
  | int width =>
    rw [alignment?, AlignTable.alignFor?_eq_some_iff]
    refine ⟨?_, ?_⟩
    · intro h
      cases h with
      | int hkey hentry => exact ⟨_, hkey, hentry⟩
    · rintro ⟨key, hkey, hentry⟩
      exact .int hkey hentry
  | float kind =>
    rw [alignment?, AlignTable.alignFor?_eq_some_iff]
    refine ⟨?_, ?_⟩
    · intro h
      cases h with
      | float hkey hentry => exact ⟨_, hkey, hentry⟩
    · rintro ⟨key, hkey, hentry⟩
      exact .float hkey hentry
  | sequence | record => cases h
  | _ =>
    rw [alignment?, Option.some.injEq]
    refine ⟨?_, ?_⟩
    · rintro ⟨⟩
      rfl
    · rintro rfl
      constructor

/-- A part that is no aggregate has no alignment by itself exactly if its table has no entries. -/
theorem untold_atom_iff (h : t.aggregateKind? = none) :
    target.Untold t ↔ target.alignment? t = none := by
  cases t with
  | int width => rw [alignment?, AlignTable.alignFor?_eq_none_iff, Untold]
  | float kind => rw [alignment?, AlignTable.alignFor?_eq_none_iff, Untold]
  | sequence | record => cases h
  | _ => simp [alignment?, Untold]

/-- Every part but arrays and vectors asks for one alignment, unless its table has no entries. A
packed struct asks for 1 whatever is inside. -/
theorem existsUnique_asks (hsequence : ∀ kind count element, t ≠ .sequence kind count element)
    (htold : ¬ target.Untold t) : ∃! align, target.Asks t align := by
  cases hkind : t.aggregateKind? with
  | none =>
    rw [untold_atom_iff hkind] at htold
    obtain ⟨align, halign⟩ := Option.ne_none_iff_exists'.1 htold
    simp only [asks_atom_iff hkind, halign, Option.some.injEq]
    exact ⟨align, rfl, fun _ => Eq.symm⟩
  | some kind =>
    cases t with
    | sequence kind count element => exact absurd rfl (hsequence kind count element)
    | record kind fields =>
      refine ⟨1, .record kind fields, ?_⟩
      rintro _ ⟨⟩
      rfl
    | _ => cases hkind

/-! ## The strictest of all -/

theorem asked_atom (h : t.aggregateKind? = none) :
    target.asked t = { align | target.alignment? t = some align } := by
  ext align
  simp only [asked, Ty.shows_atom_iff h, Set.mem_ofPred_eq, exists_eq_left, asks_atom_iff h]

theorem asked_sequence (kind : SequenceKind) (count : Nat) (element : Ty) :
    target.asked (.sequence kind count element) = target.asked element := by
  ext align
  simp only [asked, Ty.shows_sequence_iff, Set.mem_ofPred_eq]
  refine ⟨?_, ?_⟩
  · rintro ⟨part, rfl | hpart, hasks⟩
    · cases hasks
    · exact ⟨part, hpart, hasks⟩
  · rintro ⟨part, hpart, hasks⟩
    exact ⟨part, .inr hpart, hasks⟩

/-- What is asked for by a struct of the listed fields. -/
theorem asked_struct (fields : List Ty) :
    target.asked (.record .struct fields) =
      { align | align = 1 ∨ ∃ field ∈ fields, align ∈ target.asked field } := by
  ext align
  simp only [asked, Ty.shows_struct_iff, Set.mem_ofPred_eq]
  refine ⟨?_, ?_⟩
  · rintro ⟨part, rfl | ⟨field, hmem, hpart⟩, hasks⟩
    · cases hasks
      exact .inl rfl
    · exact .inr ⟨field, hmem, part, hpart, hasks⟩
  · rintro (rfl | ⟨field, hmem, part, hpart, hasks⟩)
    · exact ⟨_, .inl rfl, .record .struct fields⟩
    · exact ⟨part, .inr ⟨field, hmem, hpart⟩, hasks⟩

theorem asked_packed (fields : List Ty) : target.asked (.record .packed fields) = {1} := by
  ext align
  simp only [asked, Ty.shows_packed_iff, Set.mem_ofPred_eq, exists_eq_left, Set.mem_singleton_iff]
  refine ⟨?_, ?_⟩
  · rintro ⟨⟩
    rfl
  · rintro rfl
    exact .record .packed fields

theorem alignments?_eq_none_iff (ts : List Ty) :
    target.alignments? ts = none ↔ ∃ t ∈ ts, target.alignment? t = none := by
  induction ts with
  | nil => simp [alignments?]
  | cons t ts ih =>
    rw [alignments?, List.exists_mem_cons_iff, ← ih]
    cases target.alignment? t <;> simp

/-- The fold over fields takes the strictest of what they ask for, and of 1, which is all that a
struct without fields asks for. -/
theorem isGreatest_alignments? {ts : List Ty} (h : target.alignments? ts = some align)
    (hts : ∀ t ∈ ts, ∀ a, target.alignment? t = some a → IsGreatest (target.asked t) a) :
    IsGreatest { a | a = 1 ∨ ∃ t ∈ ts, a ∈ target.asked t } align := by
  induction ts generalizing align with
  | nil =>
    obtain rfl := Option.some.inj h
    simp
  | cons t ts ih =>
    obtain ⟨ht, hts⟩ := List.forall_mem_cons.1 hts
    rw [alignments?, Option.bind_eq_some_iff] at h
    obtain ⟨a, ha, hrest⟩ := h
    obtain ⟨b, hb, rfl⟩ := Option.map_eq_some_iff.1 hrest
    have hunion : { a | a = 1 ∨ ∃ s ∈ t :: ts, a ∈ target.asked s } =
        target.asked t ∪ { a | a = 1 ∨ ∃ s ∈ ts, a ∈ target.asked s } := by
      ext c
      simp only [List.exists_mem_cons_iff, Set.mem_ofPred_eq, Set.mem_union]
      exact or_left_comm
    rw [hunion]
    exact (ht a ha).union (ih hb hts)

/-- The alignment of a type is the strictest that a part asks for which it shows. Parts behind a
packed struct are not shown, however strict they are. -/
theorem isGreatest_asked (h : target.alignment? t = some align) :
    IsGreatest (target.asked t) align := by
  induction t using Ty.byParts generalizing align with
  | atom t hatom =>
    rw [asked_atom hatom, h]
    simp
  | sequence kind count element ih =>
    rw [alignment?] at h
    rw [asked_sequence]
    exact ih h
  | record kind fields ih =>
    cases kind with
    | struct =>
      rw [alignment?] at h
      rw [asked_struct]
      exact isGreatest_alignments? h fun t ht _ => ih t ht
    | packed =>
      obtain rfl := Option.some.inj h
      rw [asked_packed]
      exact isGreatest_singleton

/-- A type has no alignment exactly if it shows an integer or a float whose table has no entries.
What is inside a packed struct does not count for this either. -/
theorem alignment?_eq_none_iff (t : Ty) :
    target.alignment? t = none ↔ ∃ part, t.Shows part ∧ target.Untold part := by
  induction t using Ty.byParts with
  | atom t hatom => simp only [Ty.shows_atom_iff hatom, exists_eq_left, untold_atom_iff hatom]
  | sequence kind count element ih =>
    simp only [alignment?, Ty.shows_sequence_iff, or_and_right, exists_or, exists_eq_left, Untold,
      false_or, ih]
  | record kind fields ih =>
    cases kind with
    | packed => simp only [alignment?, Ty.shows_packed_iff, exists_eq_left, Untold, reduceCtorEq]
    | struct =>
      rw [alignment?, alignments?_eq_none_iff]
      simp only [Ty.shows_struct_iff, or_and_right, exists_or, exists_eq_left, Untold, false_or]
      refine ⟨?_, ?_⟩
      · rintro ⟨field, hmem, hfield⟩
        obtain ⟨part, hpart, huntold⟩ := (ih field hmem).1 hfield
        exact ⟨part, ⟨field, hmem, hpart⟩, huntold⟩
      · rintro ⟨part, ⟨field, hmem, hpart⟩, huntold⟩
        exact ⟨field, hmem, (ih field hmem).2 ⟨part, hpart, huntold⟩⟩

/-! ## What there is to know -/

/-- What is to be shown of the alignment of a type. -/
structure AlignedAsShown (target : Target) (t : Ty) : Prop where
  /-- there is none exactly if a part that is shown depends on a table without entries -/
  none_iff : target.alignment? t = none ↔ ∃ part, t.Shows part ∧ target.Untold part
  /-- otherwise it is the strictest of what the parts ask for that are shown -/
  greatest : ∀ align, target.alignment? t = some align →
    IsGreatest { a | ∃ part, t.Shows part ∧ target.Asks part a } align
  /-- every part that is shown asks for one alignment, arrays and vectors and what depends on a
  table without entries apart -/
  asks : ∀ part, t.Shows part → (∀ kind count element, part ≠ .sequence kind count element) →
    ¬ target.Untold part → ∃! align, target.Asks part align

/-- The alignment of a type is told by the parts that it shows: none if one of them depends on a
table without entries, and otherwise the strictest that they ask for. The number of elements plays
no part, so an array without elements is aligned as its element type is. -/
theorem alignedAsShown (target : Target) (t : Ty) : target.AlignedAsShown t where
  none_iff := alignment?_eq_none_iff t
  greatest _ := isGreatest_asked
  asks _ _ := existsUnique_asks

/-- What a packed struct has inside counts for nothing, and an array of pointers asks for less than
a struct around it if pointers have no size. -/
example :
    standard.alignment? (.record .packed [.int 64]) = some 1 ∧
      ({ standard with pointerSize := 0, pointerSize_le := Nat.zero_le _ } : Target).alignment?
        (.sequence .array 2 .pointer) = some 0 ∧
      ({ standard with pointerSize := 0, pointerSize_le := Nat.zero_le _ } : Target).alignment?
        (.record .struct [.sequence .array 2 .pointer]) = some 1 := ⟨rfl, rfl, rfl⟩

end Target

end SymbolicBytes
