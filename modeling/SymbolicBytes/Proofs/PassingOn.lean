import SymbolicBytes.Proofs.ByteMemory
import SymbolicBytes.Proofs.Renumbering
/-!
# Passing values on

`Machine.passOn` loads bytes and stores what was loaded, at one type after another. A value that is
passed on so at types of its size arrives as it was (`Machine.decode_passOn`): at a type other than
its own its bytes are loaded as they are and stored under a new id, and at its own it is loaded
whole and stored anew. After every link the bytes are one whole store of the value
(`Machine.WholeStore`), under the id that was next.
-/

namespace SymbolicBytes

/-! ## Bytes of one store -/

namespace SymByte

variable (parent : SymValue) (ref : ParentRef) (ty : Ty) (id : Nat) {size : Nat}

theorem distinctIds_run (hsize : 0 < size) : distinctIds (run parent ref ty id size) = [id] := by
  have hids : (run parent ref ty id size).map storeId = List.replicate size id := by
    simp [run, Function.comp_def, List.map_const']
  rw [distinctIds, hids]
  cases size with
  | zero => exact absurd hsize (Nat.lt_irrefl 0)
  | succ size => simp [List.replicate_succ, List.eraseDups_cons]

/-- The bytes of one store are numbered with one id, so storing a load of all of them takes one. -/
theorem renumber_run (start : Nat) (hsize : 0 < size) :
    renumber start (run parent ref ty id size) = run parent ref ty start size := by
  rw [renumber, distinctIds_run _ _ _ _ hsize, run, run, List.map_map]
  apply List.map_congr_left
  intro i _
  simp [renamed]

end SymByte

namespace Machine

variable {machine : Machine} {v : SymValue} {t u : Ty} {ids ids' : StoreIds} {id : Nat}
  {bytes first : List SymByte} {us : List Ty}

/-- What was stored can be stored again, as long as there is an id left: what a store checks is
about the value and the type alone. -/
theorem exists_encode_of_plain (hplain : ∀ loaded u, v ≠ .concat loaded u)
    (h : machine.encode v t ids = (.ok first, ids')) {more : StoreIds}
    (hmore : more.next < StoreIds.last) :
    ∃ out rest, machine.encode v t more = (.ok out, rest) := by
  obtain ⟨id, rest, hfresh⟩ := StoreIds.exists_fresh_eq_ok hmore
  unfold encode at h ⊢
  simp only at h ⊢
  split at h
  · cases h
  · split at h
    · -- there is no byte to store
      split at h
      · rename_i hsize
        simp only [hsize, if_true]
        exact ⟨_, _, rfl⟩
      · cases h
    · exact absurd rfl (hplain _ _)
    · cases h
    · split at h
      · cases h
      · simp only [hfresh]
        exact ⟨_, _, rfl⟩

/-- Whether bytes in memory order are all bytes of one store of a value at a type, under one id. -/
def WholeStore (machine : Machine) (v : SymValue) (t : Ty) (id : Nat) (bytes : List SymByte) :
    Prop :=
  ∃ ref, bytes = machine.target.arrange (SymByte.run v ref t id (machine.target.byteSize t))

namespace WholeStore

theorem storeId_eq (h : machine.WholeStore v t id bytes) {b : SymByte} (hb : b ∈ bytes) :
    b.storeId = id := by
  obtain ⟨ref, rfl⟩ := h
  rw [Target.mem_arrange] at hb
  obtain ⟨i, -, rfl⟩ := List.mem_map.1 hb
  rfl

/-- A whole store is loaded at its own type as the value. -/
theorem decode_eq (h : machine.WholeStore v t id bytes) (ht : t.Supported)
    (hsize : 0 < machine.target.byteSize t) : machine.decode bytes t = .ok v := by
  obtain ⟨ref, rfl⟩ := h
  apply decode_eq_of_intactParent? ht (ne_void_of_byteSize_pos hsize)
  rw [Target.arrange_arrange]
  exact intactParent?_run v ref id hsize

/-- A whole store is no whole store at any other type, be it of the same size. Bytes remember the
type that they were stored at, and are not taken for the value of another. -/
theorem intactParent?_eq_none (h : machine.WholeStore v t id bytes) (hne : t ≠ u) :
    machine.intactParent? (machine.target.arrange bytes) u = none := by
  obtain ⟨ref, rfl⟩ := h
  rw [Target.arrange_arrange]
  cases hrun : SymByte.run v ref t id (machine.target.byteSize t) with
  | nil => rfl
  | cons b rest =>
    obtain ⟨-, rfl⟩ := getElem?_run (b := b) ((congrArg (·[0]?) hrun).trans rfl)
    exact if_neg fun hintact => hne hintact.2.1

/-- A store of a value that is not made of loaded bytes is a whole store, under the next id. -/
theorem of_encode (hsize : 0 < machine.target.byteSize t)
    (hplain : ∀ loaded u, v ≠ .concat loaded u)
    (h : machine.encode v t ids = (.ok bytes, ids')) :
    machine.WholeStore v t ids.next bytes ∧ ids'.next = ids.next + 1 := by
  obtain ⟨hbytes, hnext⟩ := encode_eq_ok_of_plain hplain h
  refine ⟨⟨_, hbytes⟩, hnext ?_⟩
  rw [← List.length_pos_iff, length_encode h]
  exact hsize

/-- A whole store that is stored as loaded bytes is a whole store, under the next id. The type that
it is stored at is not remembered by its bytes. -/
theorem exists_encode_concat (h : machine.WholeStore v t id bytes) (hu : u.Supported)
    (hsize : 0 < machine.target.byteSize t)
    (hsame : machine.target.byteSize u = machine.target.byteSize t)
    (hids : ids.next < StoreIds.last) :
    ∃ out ids', machine.encode (.concat (machine.target.arrange bytes) u) u ids = (.ok out, ids') ∧
      machine.WholeStore v t ids.next out ∧ ids'.next = ids.next + 1 := by
  obtain ⟨ref, rfl⟩ := h
  have hdistinct := SymByte.distinctIds_run v ref t id hsize
  have hlen : (SymByte.run v ref t id (machine.target.byteSize t)).length =
      machine.target.byteSize u := by rw [SymByte.length_run, hsame]
  obtain ⟨ids', hstored, hnext⟩ := Machine.exists_encode_concat machine u hu hlen
    (by rw [hdistinct]; exact hids)
  rw [SymByte.renumber_run v ref t id ids.next hsize] at hstored
  rw [hdistinct] at hnext
  rw [Target.arrange_arrange]
  exact ⟨_, ids', hstored, ⟨ref, rfl⟩, hnext⟩

end WholeStore

/-! ## One type after another -/

/-- The bytes after they were loaded and stored again at each of the types, one after another. -/
def passOn (machine : Machine) : List Ty → List SymByte → StoreIds →
    Outcome (List SymByte) × StoreIds
  | [], bytes, ids => (.ok bytes, ids)
  | u :: us, bytes, ids =>
    match machine.decode bytes u with
    | .error fault => (.error fault, ids)
    | .ok v =>
      match machine.encode v u ids with
      | (.error fault, ids) => (.error fault, ids)
      | (.ok bytes, ids) => passOn machine us bytes ids

/-- One link: a whole store that is loaded at a type of its size and stored again is a whole store
of the same value at the same type, under the next id. Either the value is loaded and stored anew,
or its bytes are passed on. -/
theorem WholeStore.relay (h : machine.WholeStore v t id bytes)
    (hplain : ∀ loaded u, v ≠ .concat loaded u)
    (hstored : machine.encode v t ids = (.ok first, ids'))
    (hsize : 0 < machine.target.byteSize t) (hu : u.Supported)
    (hsame : machine.target.byteSize u = machine.target.byteSize t) {more : StoreIds}
    (hmore : more.next < StoreIds.last) :
    ∃ w out rest, machine.decode bytes u = .ok w ∧ machine.encode w u more = (.ok out, rest) ∧
      machine.WholeStore v t more.next out ∧ rest.next = more.next + 1 := by
  by_cases htu : t = u
  · subst htu
    obtain ⟨out, rest, hout⟩ := exists_encode_of_plain hplain hstored hmore
    exact ⟨v, out, rest, h.decode_eq hu hsize, hout, of_encode hsize hplain hout⟩
  · obtain ⟨out, rest, hout, hwhole, hnext⟩ := h.exists_encode_concat hu hsize hsame hmore
    have hvoid : u ≠ .void := ne_void_of_byteSize_pos (hsame ▸ hsize)
    exact ⟨_, out, rest, decode_eq_concat hu hvoid (h.intactParent?_eq_none htu), hout, hwhole,
      hnext⟩

/-- A whole store that is passed on is a whole store of the same value at the same type, under an id
that moves on by one with every link. -/
theorem WholeStore.passOn (h : machine.WholeStore v t id bytes)
    (hplain : ∀ loaded u, v ≠ .concat loaded u)
    (hstored : machine.encode v t ids = (.ok first, ids'))
    (hsize : 0 < machine.target.byteSize t)
    (hus : ∀ u ∈ us, u.Supported ∧ machine.target.byteSize u = machine.target.byteSize t)
    {more : StoreIds} (hnext : more.next = id + 1)
    (hmore : more.next + us.length ≤ StoreIds.last) :
    ∃ out rest, machine.passOn us bytes more = (.ok out, rest) ∧
      machine.WholeStore v t (id + us.length) out := by
  induction us generalizing bytes id more with
  | nil => exact ⟨bytes, more, rfl, h⟩
  | cons u us ih =>
    rw [List.forall_mem_cons] at hus
    rw [List.length_cons] at hmore ⊢
    obtain ⟨w, relayed, rest, hload, hstore, hwhole, hrest⟩ :=
      h.relay hplain hstored hsize hus.1.1 hus.1.2 (show more.next < StoreIds.last by omega)
    obtain ⟨out, last, hpass, hout⟩ := ih hwhole hus.2 hrest (by omega)
    refine ⟨out, last, ?_, ?_⟩
    · simp only [Machine.passOn, hload, hstore, hpass]
    · rwa [hnext, Nat.add_right_comm, Nat.add_assoc] at hout

/-- A value that is not made of loaded bytes arrives as it was stored, whatever types of its size it
is passed on at, as long as there are ids left. Its bytes have one id, which none of the bytes on
the way had. Nothing of the value is decided on the way, so it may hold poison, provenance and sums
that were never worked out. -/
theorem decode_passOn (hsize : 0 < machine.target.byteSize t)
    (hplain : ∀ loaded u, v ≠ .concat loaded u)
    (hstored : machine.encode v t ids = (.ok first, ids'))
    (hus : ∀ u ∈ us, u.Supported ∧ machine.target.byteSize u = machine.target.byteSize t)
    (hids : ids'.next + us.length ≤ StoreIds.last) :
    ∃ out rest, machine.passOn us first ids' = (.ok out, rest) ∧ machine.decode out t = .ok v ∧
      ∃ id, (∀ b ∈ out, b.storeId = id) ∧
        ∀ before after, us = before ++ after → after ≠ [] →
          ∃ earlier left, machine.passOn before first ids' = (.ok earlier, left) ∧
            ∀ b ∈ earlier, b.storeId ≠ id := by
  obtain ⟨hfirst, hnext⟩ := WholeStore.of_encode hsize hplain hstored
  obtain ⟨out, rest, hpass, hout⟩ := hfirst.passOn hplain hstored hsize hus hnext hids
  refine ⟨out, rest, hpass, hout.decode_eq (supported_of_encode hstored) hsize, _,
    fun b hb => hout.storeId_eq hb, ?_⟩
  rintro before after rfl hafter
  have hlen := List.length_pos_iff.2 hafter
  rw [List.length_append] at hids ⊢
  obtain ⟨earlier, left, hbefore, hearlier⟩ : ∃ earlier left,
      machine.passOn before first ids' = (.ok earlier, left) ∧
        machine.WholeStore v t (ids.next + before.length) earlier :=
    hfirst.passOn hplain hstored hsize (fun u hu => hus u (List.mem_append_left _ hu)) hnext
      (by omega)
  refine ⟨earlier, left, hbefore, fun b hb => ?_⟩
  rw [hearlier.storeId_eq hb]
  omega

/-! ## A pointer beside poison and a sum -/

/-- A pointer into an allocation, poison, and a sum that was not worked out. -/
def mixedFields : SymValue :=
  .aggregate (.record .packed) [.scalar (.address ⟨0x1000, .allocation 7⟩), .poison (.int 32),
    .binary (.int (.add false false)) (.undef (.int 32)) (.scalar (.int ⟨.i32, 1⟩))]

/-- The type of `mixedFields`, of 12 bytes where pointers have four. -/
def mixedFieldsTy : Ty := .record .packed [.pointer, .int 32, .int 32]

/-- Types of the size of `mixedFieldsTy`, itself among them. -/
def relays : List Ty :=
  [.array 12 (.int 8), mixedFieldsTy, .record .struct [.int 64, .float .float],
    .vector 3 (.int 32)]

/-- A record of all that bytes alone could not keep arrives by way of an array of bytes, itself,
another record and a vector. -/
theorem decode_passOn_relays :
    let machine := standard Twin.bigEndianTarget
    (∀ u ∈ relays, u.Supported ∧
      machine.target.byteSize u = machine.target.byteSize mixedFieldsTy) ∧
    ∃ first ids', machine.encode mixedFields mixedFieldsTy .all = (.ok first, ids') ∧
      ids'.next + relays.length ≤ StoreIds.last ∧
      ∃ out rest, machine.passOn relays first ids' = (.ok out, rest) ∧
        machine.decode out mixedFieldsTy = .ok mixedFields ∧
        ∃ id, (∀ b ∈ out, b.storeId = id) ∧
          ∀ before after, relays = before ++ after → after ≠ [] →
            ∃ earlier left, machine.passOn before first ids' = (.ok earlier, left) ∧
              ∀ b ∈ earlier, b.storeId ≠ id := by
  intro machine
  have hrelays : ∀ u ∈ relays, u.Supported ∧
      machine.target.byteSize u = machine.target.byteSize mixedFieldsTy := by decide
  obtain ⟨first, ids', hstored, hids⟩ : ∃ first ids',
      machine.encode mixedFields mixedFieldsTy .all = (.ok first, ids') ∧
        ids'.next + relays.length ≤ StoreIds.last := ⟨_, _, rfl, by decide⟩
  exact ⟨hrelays, first, ids', hstored, hids,
    decode_passOn (by decide) (by simp [mixedFields]) hstored hrelays hids⟩

end Machine

end SymbolicBytes
