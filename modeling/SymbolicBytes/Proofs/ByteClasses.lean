import SymbolicBytes.Machine.Concretize
import SymbolicBytes.Proofs.Classes
import SymbolicBytes.Proofs.Equality
import SymbolicBytes.Proofs.Outcomes
/-!
# Bytes class by class

The bookkeeping of `Machine.valueOfBytesBy`: which bytes are one whole store
(`of_intactParent?_eq_some`), in which order the others are visited (`visited`), and how the results
find their positions again (`exists_assemble_of_gather`). Bytes that are interchangeable one by one
spell the same value (`valueOfBytesBy_eq_of_forall₂`). As the classes together have every position,
every position gets a value (`exists_assemble_of_resolveClass`).
-/

namespace SymbolicBytes.Machine

variable {machine : Machine} {decide : SymValue → Outcome Value}

/-! ## Whole stores -/

/-- A position that is written as a pointer-sized integer can be read, as far as 64 bits go. Bytes
that a store makes are all of this kind. -/
theorem literalIndex?_iptr {b : SymByte} {i : Nat} (hindex : b.index = .iptr i)
    (hi : i < UInt64.size) : b.literalIndex? = some i := by
  simp only [SymByte.literalIndex?, hindex, Int.natCast_nonneg, true_and, Int.toNat_natCast]
  exact if_pos (by exact_mod_cast hi)

/-- What it means for bytes to be one whole store: there are as many as the type has, they stand in
their order, and all are entangled with the first, whose parent is the one that they have. -/
theorem of_intactParent?_eq_some {bytes : List SymByte} {ty : Ty} {parent : SymValue}
    (h : machine.intactParent? bytes ty = some parent) :
    ∃ first rest, bytes = first :: rest ∧ first.parent = parent ∧
      bytes.length = machine.target.byteSize ty ∧
      ∀ b i, bytes[i]? = some b →
        first.entangled b = true ∧ b.ty = ty ∧ b.literalIndex? = some i := by
  cases bytes with
  | nil => cases h
  | cons first rest =>
    simp only [intactParent?, Option.ite_none_right_eq_some, Option.some.injEq] at h
    obtain ⟨⟨hlen, hty, hall⟩, hparent⟩ := h
    refine ⟨first, rest, rfl, hparent, hlen, ?_⟩
    intro b i hb
    have hmem : (b, i) ∈ (first :: rest).zipIdx := List.mk_mem_zipIdx_iff_getElem?.2 hb
    have hb := List.all_eq_true.1 hall _ hmem
    simp only [Bool.and_eq_true, beq_iff_eq] at hb
    exact ⟨SymByte.entangled_symm hb.1.1, hb.1.2.trans hty, hb.2⟩

/-! ## The order of the bytes -/

/-- The bytes with their positions, class by class. -/
def visited (bytes : List SymByte) : List (SymByte × Nat) :=
  (itemClasses SymByte.entangled bytes).flatMap ItemClass.items

theorem mem_visited {bytes : List SymByte} {b : SymByte} {i : Nat} :
    (b, i) ∈ visited bytes ↔ bytes[i]? = some b :=
  List.mem_flatMap.trans mem_items_iff

/-- The order in which bytes are visited is that of the classes, in each of which positions ascend.
-/
theorem map_snd_visited (bytes : List SymByte) :
    (visited bytes).map (·.2) = (classes SymByte.entangled bytes).flatten := by
  rw [visited, classes, List.map_flatMap]
  rfl

/-- What is visited before a position is what stands before it in the classes. So the first byte
that stops the walk can be told from the classes alone. -/
theorem exists_visited_split {bytes : List SymByte} {before after : List Nat} {i : Nat}
    (h : (classes SymByte.entangled bytes).flatten = before ++ i :: after) {b : SymByte}
    (hb : bytes[i]? = some b) :
    ∃ items rest, visited bytes = items ++ (b, i) :: rest ∧ items.map (·.2) = before := by
  rw [← map_snd_visited] at h
  obtain ⟨items, rest, hsplit, hitems, hrest⟩ := List.map_eq_append_iff.1 h
  obtain ⟨item, rest, rfl, rfl, -⟩ := List.map_eq_cons_iff.1 hrest
  have hitem : bytes[item.2]? = some item.1 := by
    apply mem_visited.1
    rw [hsplit]
    exact List.mem_append_right _ (List.mem_cons_self ..)
  obtain rfl : item.1 = b := Option.some.inj (hitem.symm.trans hb)
  exact ⟨items, rest, hsplit, hitems⟩

/-! ## Putting the bytes in their places -/

/-- Bytes for all positions are put in their places. If there were two for one position the first
would be taken, but the classes have every position once. -/
theorem exists_assemble_eq_ok {count : Nat} {resolved : List (Nat × UInt8)}
    (h : ∀ i < count, ∃ x, (i, x) ∈ resolved) :
    ∃ values, assemble count resolved = .ok values ∧
      List.Forall₂ (fun i x => (i, x) ∈ resolved) (List.range count) values := by
  have hassemble : ∃ values, assemble count resolved = .ok values := by
    apply Outcome.exists_mapM_eq_ok
    intro i hi
    obtain ⟨x, hx⟩ := h i (List.mem_range.1 hi)
    obtain ⟨y, hy⟩ := Option.isSome_iff_exists.1
      (List.lookup_isSome_iff.2 ⟨(i, x), hx, beq_self_eq_true i⟩)
    refine ⟨y, ?_⟩
    rw [hy]
  obtain ⟨values, hvalues⟩ := hassemble
  refine ⟨values, hvalues, (Outcome.mapM_eq_ok.1 hvalues).imp ?_⟩
  intro i x hx
  cases hi : resolved.lookup i with
  | none => simp [hi] at hx
  | some y =>
    simp only [hi, Except.ok.injEq] at hx
    obtain ⟨before, after, hsplit, -⟩ := List.lookup_eq_some_iff.1 hi
    rw [hsplit, ← hx]
    exact List.mem_append_right _ (List.mem_cons_self ..)

/-- Bytes that stand in their order are put together in that order. -/
theorem assemble_zipIdx (values : List UInt8) :
    assemble values.length (values.zipIdx.map Prod.swap) = .ok values := by
  have hmem : ∀ i x, (i, x) ∈ values.zipIdx.map Prod.swap ↔ values[i]? = some x := by
    intro i x
    rw [← List.mk_mem_zipIdx_iff_getElem?]
    simp
  have hall : ∀ i < values.length, ∃ x, (i, x) ∈ values.zipIdx.map Prod.swap := fun i hi =>
    ⟨values[i], (hmem i _).2 (List.getElem?_eq_getElem hi)⟩
  obtain ⟨placed, hplaced, hplaces⟩ := exists_assemble_eq_ok hall
  have hsame : List.Forall₂ Eq values placed :=
    forall₂_of_range (hplaces.imp fun i x hx a ha =>
      Option.some.inj (ha.symm.trans ((hmem i x).1 hx)))
  rw [List.forall₂_eq_eq_eq] at hsame
  rw [hplaced, hsame]

/-- Bytes that all can be read, in whatever order, are put in their places. -/
theorem exists_assemble_of_gather {bytes : List SymByte} {items : List (SymByte × Nat)}
    (hitems : items.Perm bytes.zipIdx) {read : SymByte × Nat → Outcome (Option (Nat × UInt8))}
    (h : ∀ item ∈ items, ∃ x, read item = .ok (some (item.2, x))) :
    ∃ resolved values, gather read items = .ok (some resolved) ∧
      assemble bytes.length resolved = .ok values ∧
      List.Forall₂ (fun item x => read item = .ok (some (item.2, x))) bytes.zipIdx values := by
  obtain ⟨resolved, hresolved⟩ := exists_gather_eq_some fun item hitem =>
    (h item hitem).imp' (fun x => (item.2, x)) fun _ hx => hx
  have hread := gather_eq_some_iff.1 hresolved
  -- what was read of an item stands under the position of the item
  have hposition : ∀ item ∈ items, ∀ r, read item = .ok (some r) → r.1 = item.2 := by
    intro item hitem r hr
    obtain ⟨x, hx⟩ := h item hitem
    rw [← Option.some.inj (Except.ok.inj (hx.symm.trans hr))]
  have hpositions : ∀ i < bytes.length, ∃ x, (i, x) ∈ resolved := by
    intro i hi
    have hitem := hitems.mem_iff.2 (List.mk_mem_zipIdx_iff_getElem?.2 (List.getElem?_eq_getElem hi))
    obtain ⟨⟨j, x⟩, hmem, hx⟩ := exists_mem_of_forall₂ hread hitem
    obtain rfl : j = i := hposition _ hitem _ hx
    exact ⟨x, hmem⟩
  obtain ⟨values, hvalues, hplaces⟩ := exists_assemble_eq_ok hpositions
  refine ⟨resolved, values, hresolved, hvalues, forall₂_of_range ?_⟩
  rw [List.length_zipIdx]
  apply hplaces.imp
  intro i x hmem item hitem
  obtain ⟨item', hitem', hx⟩ := exists_mem_of_forall₂ hread.flip hmem
  obtain rfl : i = item'.2 := hposition _ hitem' _ hx
  have hbyte := List.mk_mem_zipIdx_iff_getElem?.1 (hitems.mem_iff.1 hitem')
  rw [List.getElem?_zipIdx, hbyte] at hitem
  obtain rfl : item' = item := by simpa using hitem
  exact hx

/-! ## All classes -/

/-- One item of a class, given the value of the parent. -/
def resolveItem (machine : Machine) (decide : SymValue → Outcome Value) (parent : Value)
    (item : SymByte × Nat) : Outcome (Option (Nat × UInt8)) :=
  (Option.map fun value => (item.2, value)) <$> machine.resolveByte decide parent item.1

/-- The parent of a class is decided once, from its seed. If it is poison then no byte of the class
is looked at, and not even a fault in a position is found. -/
theorem resolveClass_eq (decide : SymValue → Outcome Value) (c : ItemClass SymByte) :
    machine.resolveClass decide c =
      decide c.seed.1.parent >>= fun parent =>
        if parent.isPoison then .ok none
        else gather (machine.resolveItem decide parent) c.items := rfl

/-- A byte is resolved at the position that it has among all bytes. -/
theorem resolveItem_eq_some {parent : Value} {item : SymByte × Nat} {resolved : Nat × UInt8} :
    machine.resolveItem decide parent item = .ok (some resolved) ↔
      resolved.1 = item.2 ∧ machine.resolveByte decide parent item.1 = .ok (some resolved.2) := by
  obtain ⟨i, value⟩ := resolved
  rw [resolveItem]
  rcases machine.resolveByte decide parent item.1 with fault | _ | x <;> simp [eq_comm]

/-- Whether two bytes at one type have parents and positions that are decided alike. -/
structure Interchangeable (decide : SymValue → Outcome Value) (a b : SymByte) : Prop where
  /-- the parents are decided alike -/
  parent : decide a.parent = decide b.parent
  /-- the positions are decided alike -/
  index : decide a.index = decide b.index
  /-- the parents were stored at one type -/
  ty : a.ty = b.ty

/-- Classes at the same positions whose bytes are interchangeable are resolved alike, poison and
faults included. -/
theorem resolveClass_eq_of_corresponds {c d : ItemClass SymByte}
    (h : c.Corresponds (Interchangeable decide) d) :
    machine.resolveClass decide c = machine.resolveClass decide d := by
  have hseed := (List.forall₂_cons.1 h).1.1
  have hitems (parent : Value) :
      List.Forall₂ (fun a b =>
        machine.resolveItem decide parent a = machine.resolveItem decide parent b)
        c.items d.items :=
    h.imp fun a b ⟨hab, hposition⟩ => by
      simp only [resolveItem, resolveByte, indexBy, hab.index, hab.ty, hposition]
  simp only [resolveClass_eq, hseed.parent, gather_congr (hitems _)]

/-- Bytes that are interchangeable and entangled alike spell the same value, or fail in the same
way. Both what a load decides and what it forgets about its bytes go through here: ids are
renumbered and parents are replaced by equal ones by this lemma. -/
theorem valueOfBytesBy_eq_of_forall₂ {R : SymByte → SymByte → Prop}
    (hchange : ∀ a b, R a b → Interchangeable decide a b)
    (hentangled : ∀ a b, R a b → ∀ a' b', R a' b' → a.entangled a' = b.entangled b')
    {as bs : List SymByte} (h : List.Forall₂ R as bs) (ty : Ty) :
    machine.valueOfBytesBy decide as ty = machine.valueOfBytesBy decide bs ty := by
  have hclasses : List.Forall₂ (ItemClass.Corresponds R)
      (itemClasses SymByte.entangled as) (itemClasses SymByte.entangled bs) :=
    itemClasses_congr hentangled h
  have hresolve : List.Forall₂
      (fun c d => machine.resolveClass decide c = machine.resolveClass decide d)
      (itemClasses SymByte.entangled as) (itemClasses SymByte.entangled bs) :=
    hclasses.imp fun _ _ hcd => resolveClass_eq_of_corresponds
      (hcd.imp fun a b ⟨hab, hposition⟩ => ⟨hchange a.1 b.1 hab, hposition⟩)
  rw [valueOfBytesBy, valueOfBytesBy, gather_congr hresolve, h.length_eq]

/-- Where every class was resolved, every position has a value: no byte is left without one, since
the classes have all positions. -/
theorem exists_assemble_of_resolveClass {bytes : List SymByte}
    {resolved : List (List (Nat × UInt8))}
    (h : gather (machine.resolveClass decide) (itemClasses SymByte.entangled bytes) =
      .ok (some resolved)) :
    ∃ values, assemble bytes.length resolved.flatten = .ok values := by
  have hclasses := gather_eq_some_iff.1 h
  refine (exists_assemble_eq_ok ?_).imp fun _ => And.left
  intro i hi
  obtain ⟨c, hc, hitem⟩ := List.mem_flatMap.1 (mem_visited.2 (List.getElem?_eq_getElem hi))
  obtain ⟨list, hlist, hresolved⟩ := exists_mem_of_forall₂ hclasses hc
  rw [resolveClass_eq, Outcome.bind_eq_ok] at hresolved
  obtain ⟨parent, -, hresolved⟩ := hresolved
  split at hresolved
  · cases hresolved
  · obtain ⟨⟨j, x⟩, hmem, hread⟩ := exists_mem_of_forall₂ (gather_eq_some_iff.1 hresolved) hitem
    obtain rfl : j = i := (resolveItem_eq_some.1 hread).1
    exact ⟨x, List.mem_flatten.2 ⟨list, hlist, hmem⟩⟩

end SymbolicBytes.Machine
