import Mathlib.Data.List.Induction
import SymbolicBytes.Proofs.Reloading
/-!
# Renumbering store ids

Tagging bytes anew numbers the ids that occur among them, in the order in which they first occur,
and changes nothing that a load could tell (`renumbered_retag`). It fails only if there are too few
ids left.

What a load makes of bytes depends on which of them have one id, and not on the ids: bytes under
other ids are one whole store if they were (`Machine.intactParent?_renamed`), and spell the value
that they spelled (`Machine.valueOfBytesBy_renamed`).
-/

namespace SymbolicBytes

/-! ## Distinct ids -/

/-- One more id at the end is new or makes no difference. Ids are numbered as they first occur, so
the inductions below are from this end. -/
theorem eraseDups_concat (ids : List Nat) (id : Nat) :
    (ids ++ [id]).eraseDups = if id ∈ ids then ids.eraseDups else ids.eraseDups ++ [id] := by
  rw [List.eraseDups_append]
  split <;> simp_all [List.removeAll, List.eraseDups_cons]

/-- Numbers that are renamed without clashes are distinct where they were, and first occur in the
same order. -/
theorem eraseDups_map {rename : Nat → Nat} {ids : List Nat}
    (hrename : ∀ a ∈ ids, ∀ b ∈ ids, rename a = rename b → a = b) :
    (ids.map rename).eraseDups = ids.eraseDups.map rename := by
  induction ids using List.reverseRecOn with
  | nil => rfl
  | append_singleton ids id ih =>
    have hids : ∀ a ∈ ids, ∀ b ∈ ids, rename a = rename b → a = b := fun a ha b hb =>
      hrename a (List.mem_append_left _ ha) b (List.mem_append_left _ hb)
    have hmem : rename id ∈ ids.map rename ↔ id ∈ ids := by
      rw [List.mem_map]
      constructor
      · rintro ⟨a, ha, heq⟩
        exact hrename a (List.mem_append_left _ ha) id (List.mem_concat_self ..) heq ▸ ha
      · intro hid
        exact ⟨id, hid, rfl⟩
    rw [List.map_append, List.map_singleton, eraseDups_concat, eraseDups_concat, ih hids]
    simp only [hmem]
    split
    · rfl
    · rw [List.map_append, List.map_singleton]

/-- Renamed numbers are where they were. No clash with the one that is looked for is enough. -/
theorem idxOf_map {rename : Nat → Nat} {ids : List Nat} {id : Nat}
    (hrename : ∀ a ∈ ids, rename a = rename id → a = id) :
    (ids.map rename).idxOf (rename id) = ids.idxOf id := by
  induction ids with
  | nil => rfl
  | cons a ids ih =>
    -- the first entry is hit after the renaming exactly if it was before
    have hhead : (rename a == rename id) = (a == id) := by
      rw [Bool.eq_iff_iff, beq_iff_eq, beq_iff_eq]
      exact ⟨hrename a (List.mem_cons_self ..), congrArg rename⟩
    rw [List.map_cons, List.idxOf_cons, List.idxOf_cons, hhead,
      ih fun b hb => hrename b (List.mem_cons_of_mem _ hb)]

/-- The distinct ids of the bytes, in the order in which they first occur. -/
def distinctIds (bytes : List SymByte) : List Nat := (bytes.map SymByte.storeId).eraseDups

/-- The id of every byte has a number. -/
theorem mem_distinctIds {bytes : List SymByte} {b : SymByte} (hb : b ∈ bytes) :
    b.storeId ∈ distinctIds bytes := List.mem_eraseDups.2 (List.mem_map_of_mem hb)

/-- A byte under an id that has a class joins it, and any other seeds one. Seeds never change, so
the ids of the seeds grow only at the end. -/
theorem seedIds_place (cs : List (ItemClass SymByte)) (item : SymByte × Nat) :
    (ItemClass.place SymByte.sameStore cs item).map (fun c => c.seed.1.storeId) =
      if item.1.storeId ∈ cs.map (fun c => c.seed.1.storeId)
        then cs.map (fun c => c.seed.1.storeId)
        else cs.map (fun c => c.seed.1.storeId) ++ [item.1.storeId] := by
  induction cs with
  | nil => rfl
  | cons c cs ih =>
    by_cases hid : c.seed.1.storeId = item.1.storeId
    · simp [ItemClass.place, SymByte.sameStore, hid]
    · simp only [ItemClass.place, SymByte.sameStore, beq_iff_eq, hid, if_false, List.map_cons, ih,
        List.mem_cons, Ne.symm hid, false_or]
      split <;> rfl

/-- The classes of bytes under one id are seeded in the order in which the ids first occur. Tagging
anew goes by these classes, and its number for a class is thereby that of an id. -/
theorem seedIds_itemClasses (bytes : List SymByte) :
    (itemClasses SymByte.sameStore bytes).map (fun c => c.seed.1.storeId) = distinctIds bytes := by
  induction bytes using List.reverseRecOn with
  | nil => rfl
  | append_singleton bytes b ih =>
    have hmem : b.storeId ∈ distinctIds bytes ↔ b.storeId ∈ bytes.map SymByte.storeId :=
      List.mem_eraseDups
    simp only [itemClasses_concat, seedIds_place, ih, hmem]
    rw [distinctIds, distinctIds, List.map_append, List.map_singleton, eraseDups_concat]

/-- As many classes are tagged anew as there are distinct ids, so as many ids are taken. -/
theorem length_classes_sameStore (bytes : List SymByte) :
    (classes SymByte.sameStore bytes).length = (distinctIds bytes).length := by
  rw [← seedIds_itemClasses, classes, List.length_map, List.length_map]

/-- The number that tagging anew gives an id is its place among the distinct ones. -/
theorem idNumber_eq_idxOf (bytes : List SymByte) (id : Nat) :
    idNumber bytes id = (distinctIds bytes).idxOf id := by
  rw [← seedIds_itemClasses, List.idxOf, List.findIdx_map]
  rfl

/-- The bytes with their ids numbered from `start` on, in the order in which they first occur. -/
def renumber (start : Nat) (bytes : List SymByte) : List SymByte :=
  bytes.map (SymByte.renamed fun id => start + (distinctIds bytes).idxOf id)

/-! ## Bytes under other ids -/

section Renamed

variable {machine : Machine} {rename : Nat → Nat} {bytes : List SymByte} {start : Nat}
  (hrename : ∀ a ∈ bytes, ∀ b ∈ bytes,
    rename a.storeId = rename b.storeId → a.storeId = b.storeId)

include hrename

/-- Bytes under other ids spell the same value, as long as different ids stay different. Ids serve
only to tell which bytes are entangled, and two ids that became one would entangle bytes that must
be resolved apart. -/
theorem Machine.valueOfBytesBy_renamed (decide : SymValue → Outcome Value) (ty : Ty) :
    machine.valueOfBytesBy decide (bytes.map (SymByte.renamed rename)) ty =
      machine.valueOfBytesBy decide bytes ty := by
  have hbytes : List.Forall₂ (fun a b => b ∈ bytes ∧ a = b.renamed rename)
      (bytes.map (SymByte.renamed rename)) bytes :=
    List.forall₂_map_left_iff.2 (List.forall₂_same.2 fun b hb => ⟨hb, rfl⟩)
  refine valueOfBytesBy_eq_of_forall₂ ?_ ?_ hbytes ty
  · rintro _ b ⟨-, rfl⟩
    exact ⟨rfl, rfl, rfl⟩
  · rintro _ a ⟨ha, rfl⟩ _ b ⟨hb, rfl⟩
    exact SymByte.entangled_renamed (hrename a ha b hb)

/-- Loaded bytes under other ids are decided alike, with the same value or the same fault. Only the
ids of the loaded bytes themselves are others; those inside their parents are as they were. -/
theorem Machine.concretizeWithin_renamed (levels : Nat) (ty : Ty) :
    machine.concretizeWithin levels (.concat (bytes.map (SymByte.renamed rename)) ty) =
      machine.concretizeWithin levels (.concat bytes ty) := by
  cases levels with
  | zero => rfl
  | succ levels =>
    simp only [concretizeWithin, concretizeBy, intactParent?_renamed machine bytes ty hrename,
      valueOfBytesBy_renamed hrename _ ty]

/-- Renaming keeps the order in which ids first occur. -/
theorem distinctIds_renamed :
    distinctIds (bytes.map (SymByte.renamed rename)) = (distinctIds bytes).map rename := by
  rw [distinctIds, distinctIds, ← eraseDups_map, List.map_map, List.map_map]
  · rfl
  · simpa only [List.forall_mem_map] using hrename

/-- Bytes are numbered alike, whatever ids they had, as long as different ids were different. The
numbers go by places and not by ids, so they cannot tell. -/
theorem renumber_renamed :
    renumber start (bytes.map (SymByte.renamed rename)) = renumber start bytes := by
  rw [renumber, renumber, distinctIds_renamed hrename, List.map_map]
  apply List.map_congr_left
  intro b hb
  have hnumber : ((distinctIds bytes).map rename).idxOf (rename b.storeId) =
      (distinctIds bytes).idxOf b.storeId := by
    apply idxOf_map
    intro id hid
    obtain ⟨a, ha, rfl⟩ := List.mem_map.1 (List.mem_eraseDups.1 hid)
    exact hrename a ha b hb
  simp only [Function.comp_apply, SymByte.renamed, hnumber]

end Renamed

/-! ## Renumbering -/

section Renumber

variable {start : Nat} {bytes : List SymByte}

/-- Different ids have different numbers, so to number ids is to rename them without clashes, and
all of the above applies. -/
theorem storeId_eq_of_idxOf_eq {a b : SymByte} (ha : a ∈ bytes)
    (h : start + (distinctIds bytes).idxOf a.storeId =
      start + (distinctIds bytes).idxOf b.storeId) : a.storeId = b.storeId :=
  (List.idxOf_inj (mem_distinctIds ha)).1 (Nat.add_left_cancel h)

/-- Bytes that were numbered are numbered again as they were at first. The ids in between leave no
trace, however often bytes are copied. -/
theorem renumber_renumber (first start : Nat) (bytes : List SymByte) :
    renumber start (renumber first bytes) = renumber start bytes :=
  renumber_renamed fun _ ha _ _ => storeId_eq_of_idxOf_eq ha

/-- Numbering makes ids neither fewer nor more, so the next tagging takes as many. -/
theorem length_distinctIds_renumber (start : Nat) (bytes : List SymByte) :
    (distinctIds (renumber start bytes)).length = (distinctIds bytes).length := by
  rw [renumber, distinctIds_renamed fun _ ha _ _ => storeId_eq_of_idxOf_eq ha, List.length_map]

/-- As long as there are ids left, tagging bytes anew numbers their ids. All ids are taken before
any byte is tagged, so with one too few no byte is. -/
theorem retag_eq_renumber {ids : StoreIds}
    (h : ids.next + (distinctIds bytes).length ≤ StoreIds.last) :
    ∃ ids', retag bytes ids = (.ok (renumber ids.next bytes), ids') ∧
      ids'.next = ids.next + (distinctIds bytes).length := by
  rw [← length_classes_sameStore] at h ⊢
  obtain ⟨taken, ids', htake⟩ := StoreIds.exists_take_eq_ok h
  obtain ⟨rfl, hnext⟩ := StoreIds.take_eq_ok htake
  refine ⟨ids', ?_, hnext⟩
  simp only [retag, htake, relabel_eq, idNumber_eq_idxOf]
  rfl

/-- As long as there are ids left, loaded bytes are stored with their ids numbered. No store of its
own is made: the bytes keep their parents, so that they can be told again from bytes of other
stores. -/
theorem Machine.exists_encode_concat (machine : Machine) {t : Ty} (u : Ty) {ids : StoreIds}
    (ht : t.Supported) (hlen : bytes.length = machine.target.byteSize t)
    (h : ids.next + (distinctIds bytes).length ≤ StoreIds.last) :
    ∃ ids', machine.encode (.concat bytes u) t ids =
        (.ok (machine.target.arrange (renumber ids.next bytes)), ids') ∧
      ids'.next = ids.next + (distinctIds bytes).length := by
  have hcheck := (Ty.checkSupported_eq_ok_iff t).2 ht
  obtain ⟨ids', hretag, hnext⟩ := retag_eq_renumber h
  refine ⟨ids', ?_, hnext⟩
  simp only [encode, hcheck, hlen, ne_eq, not_true_eq_false, if_false, hretag, Outcome.map_ok]

end Renumber

/-- Whether bytes are others whose ids were numbered anew from `start` on, which no load can
tell. -/
structure Renumbered (start : Nat) (bytes out : List SymByte) : Prop where
  /-- every byte is in its place and keeps all but its id, and the ids are numbered in the order in
  which they first occurred -/
  places : List.Forall₂ (fun b c : SymByte => c.parent = b.parent ∧ c.ref = b.ref ∧ c.ty = b.ty ∧
    c.index = b.index ∧ c.storeId = start + (distinctIds bytes).idxOf b.storeId) bytes out
  /-- bytes have one id where they had one -/
  sameIds : ∀ (i j : Nat) (a b c d : SymByte), bytes[i]? = some a → bytes[j]? = some b →
    out[i]? = some c → out[j]? = some d → (c.storeId = d.storeId ↔ a.storeId = b.storeId)
  /-- bytes are one whole store, of one parent, where they were -/
  intact : ∀ (machine : Machine) ty, machine.intactParent? out ty = machine.intactParent? bytes ty
  /-- loaded bytes are decided as they were, to any number of levels -/
  decided : ∀ (machine : Machine) ty levels,
    machine.concretizeWithin levels (.concat out ty) =
      machine.concretizeWithin levels (.concat bytes ty)

/-- Numbered bytes are the given ones, as far as a load can tell. All four parts come from the
numbers not clashing. -/
theorem renumbered_renumber (start : Nat) (bytes : List SymByte) :
    Renumbered start bytes (renumber start bytes) where
  places := List.forall₂_map_right_iff.2 (List.forall₂_same.2 fun _ _ => ⟨rfl, rfl, rfl, rfl, rfl⟩)
  sameIds i j a b c d ha hb hc hd := by
    simp only [renumber, List.getElem?_map, ha, hb, Option.map_some, Option.some.injEq] at hc hd
    subst hc hd
    constructor
    · exact storeId_eq_of_idxOf_eq (List.mem_of_getElem? ha)
    · intro hid
      simp only [SymByte.renamed, hid]
  intact machine ty :=
    Machine.intactParent?_renamed machine bytes ty fun _ ha _ _ => storeId_eq_of_idxOf_eq ha
  decided machine ty levels :=
    Machine.concretizeWithin_renamed (fun _ ha _ _ => storeId_eq_of_idxOf_eq ha) levels ty

/-- As long as there are ids left, tagging bytes anew succeeds, takes an id for each distinct one
that there was, and numbers them as they first occurred; no load can tell. Tagging the bytes anew
once more numbers the ids alike, so a copy of a copy is a copy. The bound is exact, as each distinct
id takes one. -/
theorem renumbered_retag (bytes : List SymByte) {ids : StoreIds}
    (h : ids.next + (distinctIds bytes).length ≤ StoreIds.last) :
    ∃ out ids', retag bytes ids = (.ok out, ids') ∧ Renumbered ids.next bytes out ∧
      ids'.next = ids.next + (distinctIds bytes).length ∧
      ∀ more : StoreIds, more.next + (distinctIds bytes).length ≤ StoreIds.last →
        ∃ again rest, retag out more = (.ok again, rest) ∧ Renumbered more.next bytes again := by
  obtain ⟨ids', hretag, hnext⟩ := retag_eq_renumber h
  refine ⟨_, ids', hretag, renumbered_renumber .., hnext, ?_⟩
  intro more hmore
  rw [← length_distinctIds_renumber ids.next] at hmore
  obtain ⟨rest, hagain, -⟩ := retag_eq_renumber hmore
  rw [renumber_renumber] at hagain
  exact ⟨_, rest, hagain, renumbered_renumber ..⟩

/-! ## One id for two parents -/

/-- Bytes of two numbers under one id, which are not entangled for that, and a byte under
another. -/
def crossedBytes : List SymByte :=
  [⟨.scalar (.int ⟨.i32, 0x04030201⟩), .given 0, .int 32, .iptr 0, 7⟩,
    ⟨.undef (.int 8), .given 1, .int 8, .iptr 0, 9⟩,
    ⟨.scalar (.int ⟨.i32, 0x08070605⟩), .given 2, .int 32, .iptr 2, 7⟩,
    ⟨.scalar (.int ⟨.i32, 0x04030201⟩), .given 0, .int 32, .iptr 3, 7⟩]

/-- The last two ids are just enough for these bytes, and what they are decided as after that is
what they were decided as before: bytes of both numbers, and a zero between them. -/
theorem renumbered_retag_crossedBytes :
    let ids := StoreIds.above 4294967292
    ids.next + (distinctIds crossedBytes).length ≤ StoreIds.last ∧
      ∃ out ids', retag crossedBytes ids = (.ok out, ids') ∧
        Renumbered 4294967293 crossedBytes out ∧ ids'.next = 4294967295 ∧
        out.map SymByte.storeId = [4294967293, 4294967294, 4294967293, 4294967293] ∧
        (Machine.standard .standard).concretize (.concat out (.int 32)) =
          .ok (.int ⟨.i32, 0x04070001⟩) := by
  intro ids
  have hids : ids.next + (distinctIds crossedBytes).length ≤ StoreIds.last := by decide
  obtain ⟨out, ids', hretag, hout, hnext, -⟩ := renumbered_retag crossedBytes hids
  refine ⟨hids, out, ids', hretag, hout, hnext, ?_, ?_⟩
  · have hnumbers : crossedBytes.map (fun b =>
        ids.next + (distinctIds crossedBytes).idxOf b.storeId) = out.map SymByte.storeId :=
      map_eq_of_forall₂ (hout.places.imp fun _ _ hb => hb.2.2.2.2.symm)
    exact hnumbers.symm.trans (by decide)
  · exact (hout.decided _ _ _).trans (by rfl)

end SymbolicBytes
