import SymbolicBytes.Machine.Store
import SymbolicBytes.Proofs.Classes
import SymbolicBytes.Proofs.Outcomes
/-!
# Store ids and the bytes that carry them

Which ids storing and tagging anew hand out. Tagging anew gives the distinct ids of some bytes the
next ids, in the order in which they first occur (`retag_eq_ok`); storing a value gives all its
bytes the next id (`encode_eq_ok_of_plain`).

`Tagged` is what the ids of a memory rest on: they are all below the next one, and bytes under one
id belong to one store. Bytes that were tagged after others can be put with them (`Tagged.append`).
-/

namespace SymbolicBytes

/-! ## The supply -/

namespace StoreIds

theorem fresh_eq_ok {ids ids' : StoreIds} {id : Nat} (h : ids.fresh = (.ok id, ids')) :
    id = ids.next ∧ ids'.next = ids.next + 1 := by
  rw [fresh] at h
  split at h
  · cases h
    exact ⟨rfl, rfl⟩
  · cases h

theorem exists_fresh_eq_ok {ids : StoreIds} (h : ids.next < last) :
    ∃ id ids', ids.fresh = (.ok id, ids') := by
  rw [fresh, dif_pos h]
  exact ⟨_, _, rfl⟩

theorem next_le_fresh (ids : StoreIds) : ids.next ≤ ids.fresh.2.next := by
  rw [fresh]
  split
  · exact Nat.le_succ _
  · exact Nat.le_refl _

/-- The next ids are handed out in ascending order, without a gap. Nothing that was handed out
before is among them. -/
theorem take_eq_ok {count : Nat} {ids ids' : StoreIds} {taken : List Nat}
    (h : take count ids = (.ok taken, ids')) :
    taken = List.range' ids.next count ∧ ids'.next = ids.next + count := by
  induction count generalizing ids ids' taken with
  | zero =>
    cases h
    exact ⟨rfl, rfl⟩
  | succ count ih =>
    simp only [take] at h
    split at h
    · cases h
    · rename_i id rest hfresh
      obtain ⟨rfl, hnext⟩ := fresh_eq_ok hfresh
      split at h
      · cases h
      · rename_i more last hmore
        obtain ⟨rfl, hlast⟩ := ih hmore
        cases h
        rw [hlast, hnext]
        refine ⟨rfl, ?_⟩
        omega

theorem exists_take_eq_ok {count : Nat} {ids : StoreIds} (h : ids.next + count ≤ last) :
    ∃ taken ids', take count ids = (.ok taken, ids') := by
  induction count generalizing ids with
  | zero => exact ⟨[], ids, rfl⟩
  | succ count ih =>
    obtain ⟨id, rest, hfresh⟩ := exists_fresh_eq_ok (show ids.next < last by omega)
    have hnext := (fresh_eq_ok hfresh).2
    obtain ⟨more, ids', hmore⟩ := ih (show rest.next + count ≤ last by omega)
    refine ⟨id :: more, ids', ?_⟩
    rw [take, hfresh]
    simp only [hmore]

/-- Even an attempt that runs out of ids gives none of them back. -/
theorem next_le_take (count : Nat) (ids : StoreIds) : ids.next ≤ (take count ids).2.next := by
  induction count generalizing ids with
  | zero => exact Nat.le_refl _
  | succ count ih =>
    have hfresh := ids.next_le_fresh
    simp only [take]
    split
    · rename_i heq
      rwa [heq] at hfresh
    · rename_i id rest heq
      rw [heq] at hfresh
      have hrest := ih rest
      split
      · rename_i hmore
        rw [hmore] at hrest
        exact Nat.le_trans hfresh hrest
      · rename_i hmore
        rw [hmore] at hrest
        exact Nat.le_trans hfresh hrest

end StoreIds

/-! ## Tagging anew -/

/-- The number of a store id among those of the bytes, in the order in which they first occur. -/
def idNumber (bytes : List SymByte) (id : Nat) : Nat :=
  (itemClasses SymByte.sameStore bytes).findIdx fun c => c.seed.1.storeId == id

theorem SymByte.equivalence_sameStore : Equivalence fun a b : SymByte => a.sameStore b = true where
  refl _ := beq_self_eq_true _
  symm h := beq_iff_eq.2 (beq_iff_eq.1 h).symm
  trans h h' := beq_iff_eq.2 ((beq_iff_eq.1 h).trans (beq_iff_eq.1 h'))

/-- The bytes under one id have a class. -/
theorem exists_itemClass_of_mem {bytes : List SymByte} {b : SymByte} (hb : b ∈ bytes) :
    ∃ c ∈ itemClasses SymByte.sameStore bytes, c.seed.1.storeId = b.storeId := by
  obtain ⟨i, hi⟩ := List.getElem?_of_mem hb
  obtain ⟨c, hc, hmem⟩ := mem_items_iff.2 hi
  exact ⟨c, hc, beq_iff_eq.1 ((mem_items_iff_same SymByte.equivalence_sameStore hc hi).1 hmem)⟩

/-- The class under the number of an id has that id. Numbers of ids are places in the list of
classes, which is how tagging anew looks them up. -/
theorem exists_seed_idNumber {bytes : List SymByte} {b : SymByte} (hb : b ∈ bytes) :
    ∃ c, (itemClasses SymByte.sameStore bytes)[idNumber bytes b.storeId]? = some c ∧
      c.seed.1.storeId = b.storeId := by
  obtain ⟨c, hc, hid⟩ := exists_itemClass_of_mem hb
  have hlt : idNumber bytes b.storeId < (itemClasses SymByte.sameStore bytes).length :=
    List.findIdx_lt_length_of_exists ⟨c, hc, beq_iff_eq.2 hid⟩
  exact ⟨_, List.getElem?_eq_getElem hlt, beq_iff_eq.1 (List.findIdx_getElem (w := hlt))⟩

theorem idNumber_lt {bytes : List SymByte} {b : SymByte} (hb : b ∈ bytes) :
    idNumber bytes b.storeId < (classes SymByte.sameStore bytes).length := by
  obtain ⟨c, hc, -⟩ := exists_seed_idNumber hb
  rw [classes, List.length_map]
  exact (List.getElem?_eq_some_iff.1 hc).1

/-- Different ids have different numbers. -/
theorem storeId_eq_of_idNumber_eq {bytes : List SymByte} {a b : SymByte} (ha : a ∈ bytes)
    (hb : b ∈ bytes) (h : idNumber bytes a.storeId = idNumber bytes b.storeId) :
    a.storeId = b.storeId := by
  obtain ⟨c, hc, hid⟩ := exists_seed_idNumber ha
  obtain ⟨d, hd, hid'⟩ := exists_seed_idNumber hb
  rw [h, hd] at hc
  obtain rfl := Option.some.inj hc
  exact hid.symm.trans hid'

/-- In a list that is numbered, the first item that is looked for is found with its number. -/
theorem find?_zip_range' {α : Type} {p : α → Bool} {as : List α} (h : ∃ a ∈ as, p a = true)
    (start : Nat) :
    ∃ a, (as.zip (List.range' start as.length)).find? (fun c => p c.1) =
      some (a, start + as.findIdx p) := by
  induction as generalizing start with
  | nil => simp at h
  | cons a as ih =>
    simp only [List.length_cons, List.range'_succ, List.zip_cons_cons, List.findIdx_cons]
    cases hp : p a with
    | true =>
      refine ⟨a, ?_⟩
      simp [hp]
    | false =>
      obtain ⟨b, hb⟩ := ih (by simpa [hp] using h) (start + 1)
      refine ⟨b, ?_⟩
      rw [List.find?_cons_of_neg (by simp [hp]), hb]
      simp only [cond_false]
      congr 2
      omega

/-- The class that a position is in is the class of the id of the byte there. Classes are kept as
lists of positions, so this is what ties them to ids. -/
theorem contains_positions {bytes : List SymByte} {c : ItemClass SymByte}
    (hc : c ∈ itemClasses SymByte.sameStore bytes) {b : SymByte} {i : Nat}
    (hb : bytes[i]? = some b) :
    c.positions.contains i = (c.seed.1.storeId == b.storeId) := by
  rw [Bool.eq_iff_iff, List.contains_iff_mem, ItemClass.positions]
  refine Iff.trans ?_ (mem_items_iff_same SymByte.equivalence_sameStore hc hb)
  -- a class has one byte at most at a position, which is the byte of the list there
  rw [List.mem_map]
  constructor
  · rintro ⟨⟨b', j⟩, hmem, hj⟩
    obtain rfl : j = i := hj
    obtain rfl : b' = b := Option.some.inj ((mem_items_iff.1 ⟨c, hc, hmem⟩).symm.trans hb)
    exact hmem
  · intro hmem
    exact ⟨_, hmem, rfl⟩

/-- Giving the classes of some bytes the ids from `start` on gives every byte `start` plus the
number of the id that it had. Each byte is found in the first class that has its position, which is
the only one. -/
theorem relabel_eq (bytes : List SymByte) (start : Nat) :
    relabel bytes ((classes SymByte.sameStore bytes).zip
        (List.range' start (classes SymByte.sameStore bytes).length)) =
      .ok (bytes.map fun b => { b with storeId := start + idNumber bytes b.storeId }) := by
  rw [relabel, Outcome.mapM_eq_ok]
  refine List.forall₂_iff_get.2 ⟨by simp, ?_⟩
  intro i hi hi'
  have hbyte : i < bytes.length := by simpa using hi
  have hb : bytes[i]? = some bytes[i] := List.getElem?_eq_getElem hbyte
  have hfindIdx : (classes SymByte.sameStore bytes).findIdx (fun g => g.contains i) =
      idNumber bytes bytes[i].storeId := by
    rw [classes, List.findIdx_map, idNumber]
    exact Nat.le_antisymm
      (List.findIdx_le_findIdx fun c hc h => (contains_positions hc hb).trans h)
      (List.findIdx_le_findIdx fun c hc h => (contains_positions hc hb).symm.trans h)
  obtain ⟨c, hc, hid⟩ := exists_itemClass_of_mem (List.getElem_mem hbyte)
  have hfound : ∃ g ∈ classes SymByte.sameStore bytes, g.contains i = true :=
    ⟨c.positions, List.mem_map_of_mem hc, (contains_positions hc hb).trans (beq_iff_eq.2 hid)⟩
  obtain ⟨g, hg⟩ := find?_zip_range' hfound start
  rw [hfindIdx] at hg
  simp only [List.get_eq_getElem, List.getElem_zipIdx, Nat.zero_add, List.getElem_map, hg]

/-- Tagging anew gives the distinct ids the next ids, in the order in which they first occur, and
takes no more than these. Nothing else about a byte changes. -/
theorem retag_eq_ok {bytes out : List SymByte} {ids ids' : StoreIds}
    (h : retag bytes ids = (.ok out, ids')) :
    out = bytes.map (fun b => { b with storeId := ids.next + idNumber bytes b.storeId }) ∧
      ids'.next = ids.next + (classes SymByte.sameStore bytes).length := by
  simp only [retag] at h
  split at h
  · cases h
  · rename_i taken rest htake
    obtain ⟨rfl, hnext⟩ := StoreIds.take_eq_ok htake
    rw [relabel_eq] at h
    cases h
    exact ⟨rfl, hnext⟩

theorem next_le_retag (bytes : List SymByte) (ids : StoreIds) :
    ids.next ≤ (retag bytes ids).2.next := by
  have htake := StoreIds.next_le_take (classes SymByte.sameStore bytes).length ids
  simp only [retag]
  split
  · rename_i heq
    rwa [heq] at htake
  · rename_i heq
    rwa [heq] at htake

/-! ## Storing -/

namespace Target

variable {α β : Type} {target : Target}

@[simp] theorem mem_arrange {bytes : List α} {b : α} : b ∈ target.arrange bytes ↔ b ∈ bytes := by
  rw [arrange]
  cases target.endian <;> simp

@[simp] theorem arrange_nil : target.arrange ([] : List α) = [] := by
  rw [arrange]
  cases target.endian <;> rfl

theorem forall₂_arrange {R : α → β → Prop} {as : List α} {bs : List β} :
    List.Forall₂ R (target.arrange as) (target.arrange bs) ↔ List.Forall₂ R as bs := by
  simp only [arrange]
  cases target.endian
  · exact Iff.rfl
  · exact List.forall₂_reverse_iff

end Target

namespace Machine

variable {machine : Machine} {v : SymValue} {ty : Ty} {ids ids' : StoreIds} {out : List SymByte}

theorem next_le_encode (machine : Machine) (v : SymValue) (ty : Ty) (ids : StoreIds) :
    ids.next ≤ (machine.encode v ty ids).2.next := by
  unfold encode
  simp only
  split
  · exact Nat.le_refl _
  · split
    · exact Nat.le_refl _
    · split
      · exact Nat.le_refl _
      · -- loaded bytes take an id for each store that they come from
        exact next_le_retag ..
    · exact Nat.le_refl _
    · split
      · exact Nat.le_refl _
      · -- any other value takes one
        have hfresh := ids.next_le_fresh
        split
        · rename_i heq
          rwa [heq] at hfresh
        · rename_i heq
          rwa [heq] at hfresh

/-- A value that is not made of loaded bytes is stored as one run of bytes under the next id, with a
reference of the same number. Only a store without bytes may do without the id. -/
theorem encode_eq_ok_of_plain (hplain : ∀ bytes u, v ≠ .concat bytes u)
    (h : machine.encode v ty ids = (.ok out, ids')) :
    out = machine.target.arrange
        (SymByte.run v (.stored ids.next) ty ids.next (machine.target.byteSize ty)) ∧
      (out ≠ [] → ids'.next = ids.next + 1) := by
  unfold encode at h
  simp only at h
  split at h
  · cases h
  · split at h
    · -- there is no byte to store, and no id is taken
      split at h
      · rename_i hsize
        cases h
        refine ⟨?_, fun hne => absurd rfl hne⟩
        simp [hsize, SymByte.run]
      · cases h
    · exact absurd rfl (hplain _ _)
    · cases h
    · split at h
      · cases h
      · split at h
        · cases h
        · rename_i id rest hfresh
          obtain ⟨rfl, hnext⟩ := StoreIds.fresh_eq_ok hfresh
          cases h
          exact ⟨rfl, fun _ => hnext⟩

/-- Loaded bytes are stored as they are, under ids of their own. They are not stored as the parts of
one new value, or the stores that they come from could not be told any more. -/
theorem encode_eq_ok_of_concat {loaded : List SymByte} {u : Ty}
    (h : machine.encode (.concat loaded u) ty ids = (.ok out, ids')) :
    ∃ tagged, retag loaded ids = (.ok tagged, ids') ∧ out = machine.target.arrange tagged := by
  rw [encode] at h
  simp only at h
  split at h
  · cases h
  · split at h
    · cases h
    · rcases hretag : retag loaded ids with ⟨fault | tagged, rest⟩
      · rw [hretag] at h
        cases h
      · rw [hretag] at h
        cases h
        exact ⟨tagged, rfl, rfl⟩

/-! ## Loading -/

variable {bytes : List SymByte}

/-- A whole store is loaded as what was stored, which need not be a value that its bytes could
spell. -/
theorem decode_eq_of_intactParent? (hty : ty.Supported) (hvoid : ty ≠ .void) {parent : SymValue}
    (h : machine.intactParent? (machine.target.arrange bytes) ty = some parent) :
    machine.decode bytes ty = .ok parent := by
  have hcheck := (Ty.checkSupported_eq_ok_iff ty).2 hty
  simp only [decode, hcheck, hvoid, h, if_false, Outcome.ok_bind, Outcome.pure_eq_ok]

/-- Other bytes are loaded as they are, and only looked into when the value is decided. -/
theorem decode_eq_concat (hty : ty.Supported) (hvoid : ty ≠ .void)
    (h : machine.intactParent? (machine.target.arrange bytes) ty = none) :
    machine.decode bytes ty = .ok (.concat (machine.target.arrange bytes) ty) := by
  have hcheck := (Ty.checkSupported_eq_ok_iff ty).2 hty
  simp only [decode, hcheck, hvoid, h, if_false, Outcome.ok_bind, Outcome.pure_eq_ok]

end Machine

/-! ## Bytes of stores -/

/-- Whether bytes have ids from `first` on that were handed out, and bytes under one id belong to
one store of one value at one type. -/
structure Tagged (first : Nat) (ids : StoreIds) (bytes : List SymByte) : Prop where
  /-- the ids from `first` on begin with those that were handed out -/
  first_le : first ≤ ids.next
  /-- the ids were handed out -/
  used : ∀ b ∈ bytes, first ≤ b.storeId ∧ b.storeId < ids.next
  /-- an id stands for a parent and the type that it was stored at -/
  owned : ∀ a ∈ bytes, ∀ b ∈ bytes, a.storeId = b.storeId →
    a.parent = b.parent ∧ a.ref = b.ref ∧ a.ty = b.ty

namespace Tagged

variable {first : Nat} {ids ids' : StoreIds} {bytes new : List SymByte}

theorem nil (ids : StoreIds) : Tagged ids.next ids [] :=
  ⟨Nat.le_refl _, fun _ h => absurd h List.not_mem_nil, fun _ h => absurd h List.not_mem_nil⟩

/-- Bytes that are dropped take no others with them. -/
theorem mono (h : Tagged first ids bytes) (hnew : new ⊆ bytes) : Tagged first ids new :=
  ⟨h.first_le, fun b hb => h.used b (hnew hb), fun a ha b hb => h.owned a (hnew ha) b (hnew hb)⟩

/-- Ids that are handed out and put on no byte do no harm. -/
theorem later (h : Tagged first ids bytes) (hle : ids.next ≤ ids'.next) :
    Tagged first ids' bytes :=
  ⟨Nat.le_trans h.first_le hle,
    fun b hb => ⟨(h.used b hb).1, Nat.lt_of_lt_of_le (h.used b hb).2 hle⟩, h.owned⟩

/-- Bytes whose ids were handed out later share none of the ids that there were, so nothing has to
be known of the stores that they belong to. -/
theorem append (h : Tagged first ids bytes) (hnew : Tagged ids.next ids' new) :
    Tagged first ids' (bytes ++ new) where
  first_le := Nat.le_trans h.first_le hnew.first_le
  used b hb := by
    rcases List.mem_append.1 hb with hb | hb
    · exact (h.later hnew.first_le).used b hb
    · exact ⟨Nat.le_trans h.first_le (hnew.used b hb).1, (hnew.used b hb).2⟩
  owned a ha b hb hid := by
    rcases List.mem_append.1 ha with ha | ha <;> rcases List.mem_append.1 hb with hb | hb
    · exact h.owned a ha b hb hid
    · -- an id of the one part is below all ids of the other
      have hlt := (h.used a ha).2
      have hge := (hnew.used b hb).1
      omega
    · have hge := (hnew.used a ha).1
      have hlt := (h.used b hb).2
      omega
    · exact hnew.owned a ha b hb hid

/-- Other bytes may take the place of some if they are among them or were tagged later. This is
every way in which a memory is written to. -/
theorem replace {rest written : List SymByte} (h : Tagged first ids (bytes ++ rest))
    (hwritten : written ⊆ bytes ++ new) (hnew : Tagged ids.next ids' new) :
    Tagged first ids' (written ++ rest) := by
  refine (h.append hnew).mono ?_
  intro b hb
  rcases List.mem_append.1 hb with hb | hb
  · rcases List.mem_append.1 (hwritten hb) with hb | hb
    · exact List.mem_append_left _ (List.mem_append_left _ hb)
    · exact List.mem_append_right _ hb
  · exact List.mem_append_left _ (List.mem_append_right _ hb)

end Tagged

/-- Bytes that are tagged anew are tagged, and belong to the stores that they belonged to. Where two
of them have one id now they had one before, and with it one parent. -/
theorem tagged_retag {first : Nat} {ids₀ ids ids' : StoreIds} {bytes out : List SymByte}
    (hbytes : Tagged first ids₀ bytes) (h : retag bytes ids = (.ok out, ids')) :
    Tagged ids.next ids' out := by
  obtain ⟨rfl, hnext⟩ := retag_eq_ok h
  refine ⟨by omega, ?_, ?_⟩
  · intro b hb
    obtain ⟨b₀, hb₀, rfl⟩ := List.mem_map.1 hb
    have hlt := idNumber_lt hb₀
    refine ⟨Nat.le_add_right .., ?_⟩
    simp only
    omega
  · -- bytes that have one id now had one id before
    intro a ha b hb hid
    obtain ⟨a₀, ha₀, rfl⟩ := List.mem_map.1 ha
    obtain ⟨b₀, hb₀, rfl⟩ := List.mem_map.1 hb
    have hid₀ := storeId_eq_of_idNumber_eq ha₀ hb₀ (Nat.add_left_cancel hid)
    exact hbytes.owned a₀ ha₀ b₀ hb₀ hid₀

/-- A new store has an id of its own, so that its bytes alone are under it. -/
theorem tagged_encode_of_plain {machine : Machine} {v : SymValue} {ty : Ty} {ids ids' : StoreIds}
    {out : List SymByte} (hplain : ∀ bytes u, v ≠ .concat bytes u)
    (h : machine.encode v ty ids = (.ok out, ids')) : Tagged ids.next ids' out := by
  have hle := machine.next_le_encode v ty ids
  rw [h] at hle
  obtain ⟨hout, hnext⟩ := Machine.encode_eq_ok_of_plain hplain h
  have hbyte : ∀ b ∈ out, b.parent = v ∧ b.ref = .stored ids.next ∧ b.ty = ty ∧
      b.storeId = ids.next := by
    intro b hb
    rw [hout, Target.mem_arrange] at hb
    obtain ⟨i, -, rfl⟩ := List.mem_map.1 hb
    exact ⟨rfl, rfl, rfl, rfl⟩
  refine ⟨hle, ?_, ?_⟩
  · intro b hb
    rw [(hbyte b hb).2.2.2, hnext (List.ne_nil_of_mem hb)]
    exact ⟨Nat.le_refl _, Nat.lt_succ_self _⟩
  · intro a ha b hb _
    obtain ⟨hparent, href, hty, -⟩ := hbyte a ha
    obtain ⟨hparent', href', hty', -⟩ := hbyte b hb
    exact ⟨hparent.trans hparent'.symm, href.trans href'.symm, hty.trans hty'.symm⟩

end SymbolicBytes
