/-!
# Alignment tables

A target lists the alignments of its integers and of its floats by bit width. A width that is not
listed takes the alignment of the next wider entry, or, past the widest, that of the widest.

`AlignTable` keeps its entries in ascending order of width with one entry a width, so both rules
are a search from the front. The main facts are `insert` keeping the order and `alignFor?` failing
on the empty table only.
-/

namespace SymbolicBytes

/-- Alignments in bytes by bit width, in ascending order of width. -/
structure AlignTable where
  /-- pairs of a width and its alignment -/
  entries : List (Nat × Nat)
  /-- no width is listed twice and the narrower comes first -/
  ascending : entries.Pairwise fun a b => a.1 < b.1

namespace AlignTable

/-- The table without entries. -/
def empty : AlignTable := ⟨[], List.Pairwise.nil⟩

/-- `entries` with the alignment of `width` set to `align`. -/
def insertInto (width align : Nat) : List (Nat × Nat) → List (Nat × Nat)
  | [] => [(width, align)]
  | e :: rest =>
    if width < e.1 then (width, align) :: e :: rest
    else if width = e.1 then (width, align) :: rest
    else e :: insertInto width align rest

theorem mem_insertInto {width align : Nat} {entries : List (Nat × Nat)} {e : Nat × Nat}
    (h : e ∈ insertInto width align entries) : e = (width, align) ∨ e ∈ entries := by
  induction entries with
  | nil => simpa [insertInto] using h
  | cons d rest ih =>
    simp only [insertInto] at h
    split at h
    · simpa using h
    · split at h
      · rcases List.mem_cons.1 h with h | h
        · exact .inl h
        · exact .inr (List.mem_cons_of_mem _ h)
      · rcases List.mem_cons.1 h with h | h
        · exact .inr (h ▸ List.mem_cons_self ..)
        · exact (ih h).imp id (List.mem_cons_of_mem _)

theorem ascending_insertInto (width align : Nat) {entries : List (Nat × Nat)}
    (h : entries.Pairwise fun a b => a.1 < b.1) :
    (insertInto width align entries).Pairwise fun a b => a.1 < b.1 := by
  induction entries with
  | nil => simp [insertInto]
  | cons e rest ih =>
    obtain ⟨he, hrest⟩ := List.pairwise_cons.1 h
    simp only [insertInto]
    split
    · rename_i hlt
      refine List.pairwise_cons.2 ⟨fun b hb => ?_, h⟩
      rcases List.mem_cons.1 hb with rfl | hb
      · exact hlt
      · exact Nat.lt_trans hlt (he b hb)
    · split
      · rename_i heq
        exact List.pairwise_cons.2 ⟨fun b hb => heq ▸ he b hb, hrest⟩
      · rename_i hge hne
        refine List.pairwise_cons.2 ⟨fun b hb => ?_, ih hrest⟩
        rcases mem_insertInto hb with rfl | hb
        · exact Nat.lt_of_le_of_ne (Nat.le_of_not_lt hge) (Ne.symm hne)
        · exact he b hb

/-- The table with the alignment of `width` set to `align`. -/
def insert (table : AlignTable) (width align : Nat) : AlignTable :=
  ⟨insertInto width align table.entries, ascending_insertInto width align table.ascending⟩

/-- The table of the listed alignments; of two for one width the later one counts. -/
def ofList (entries : List (Nat × Nat)) : AlignTable :=
  entries.foldl (fun table e => table.insert e.1 e.2) empty

/-- The alignment for `width` bits: that of the narrowest entry at least as wide, otherwise that of
the widest entry. -/
def alignFor? (table : AlignTable) (width : Nat) : Option Nat :=
  ((table.entries.find? fun e => width ≤ e.1).or table.entries.getLast?).map (·.2)

theorem alignFor?_eq_none_iff (table : AlignTable) (width : Nat) :
    table.alignFor? width = none ↔ table.entries = [] := by
  simp only [alignFor?, Option.map_eq_none_iff, Option.or_eq_none_iff, List.getLast?_eq_none_iff]
  exact ⟨fun h => h.2, fun h => by simp [h]⟩

end AlignTable

end SymbolicBytes
