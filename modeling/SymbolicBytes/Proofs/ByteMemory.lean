import SymbolicBytes.Memory
import SymbolicBytes.Proofs.Loading
/-!
# Memory as plain bytes

A memory of symbolic bytes, worked on step by step, beside a memory of plain bytes that is worked on
alike: a stored value writes the bytes of what it is decided as, values that were loaded are stored
as the plain bytes that they were loaded from, and ids mean nothing. However stores overlap and
whatever is copied, exchanged or tagged anew, every load is decided as the value that the plain
bytes spell in its place (`Twin.load_run`).

The invariant is `Twin.Sound`: byte by byte the one memory stands for the other, in what was loaded
as well, and bytes under one id belong to one store. `Twin.Sound.step` is the step lemma.
-/

namespace SymbolicBytes

/-! ## Lists that are worked on alike -/

/-- The list with the items at two positions exchanged, if there are both. -/
def exchange {α : Type} (items : List α) (i j : Nat) : List α :=
  match items[i]?, items[j]? with
  | some a, some b => (items.set i b).set j a
  | _, _ => items

section Lists

variable {α β : Type} {R : α → β → Prop} {as new : List α} {bs new' : List β}

/-- Every item is from the list or from what was written over it. -/
theorem overwrite_subset (items new : List α) (start : Nat) :
    overwrite items start new ⊆ items ++ new := by
  intro a ha
  rcases List.mem_append.1 ha with ha | ha
  · rcases List.mem_append.1 ha with ha | ha
    · exact List.mem_append_left _ (List.mem_of_mem_take ha)
    · exact List.mem_append_right _ ha
  · exact List.mem_append_left _ (List.mem_of_mem_drop ha)

/-- An exchange brings no new items, even where one of the positions is past the end. -/
theorem exchange_subset (items : List α) (i j : Nat) : exchange items i j ⊆ items := by
  rw [exchange]
  split
  · rename_i a b ha hb
    intro c hc
    rcases List.mem_or_eq_of_mem_set hc with hc | rfl
    · rcases List.mem_or_eq_of_mem_set hc with hc | rfl
      · exact hc
      · exact List.mem_of_getElem? hb
    · exact List.mem_of_getElem? ha
  · exact List.Subset.refl _

/-- Writing a piece of a list where it came from changes nothing. So a memory that is tagged anew
can be seen as one that is written to. -/
theorem overwrite_slice (items : List α) (start count : Nat) :
    overwrite items start ((items.drop start).take count) = items := by
  have hrest : items.drop (start + ((items.drop start).take count).length) =
      (items.drop start).drop count := by
    rw [List.drop_drop, List.length_take]
    rcases Nat.le_total count (items.drop start).length with hle | hle
    · rw [Nat.min_eq_left hle]
    · rw [Nat.min_eq_right hle, List.drop_eq_nil_of_le, List.drop_eq_nil_of_le] <;>
        simp only [List.length_drop] at * <;> omega
  rw [overwrite, hrest, List.append_assoc, List.take_append_drop, List.take_append_drop]

/-- Lists that agree item by item agree in every piece, the pieces being taken alike. -/
theorem forall₂_slice (h : List.Forall₂ R as bs) (start count : Nat) :
    List.Forall₂ R ((as.drop start).take count) ((bs.drop start).take count) :=
  List.forall₂_take count (List.forall₂_drop start h)

/-- Lists that agree still do when they are written to alike. What is written need not lie inside
either. -/
theorem forall₂_overwrite (h : List.Forall₂ R as bs) (hnew : List.Forall₂ R new new')
    (start : Nat) : List.Forall₂ R (overwrite as start new) (overwrite bs start new') := by
  rw [overwrite, overwrite, ← hnew.length_eq]
  exact List.rel_append (List.rel_append (List.forall₂_take start h) hnew)
    (List.forall₂_drop _ h)

/-- Lists that agree still do after the same exchange. They are of one length, so a position is past
the end of both or of neither. -/
theorem forall₂_exchange (h : List.Forall₂ R as bs) (i j : Nat) :
    List.Forall₂ R (exchange as i j) (exchange bs i j) := by
  by_cases hij : i < as.length ∧ j < as.length
  · obtain ⟨hi, hj⟩ := hij
    have hi' := h.length_eq ▸ hi
    have hj' := h.length_eq ▸ hj
    have hat : ∀ k (hk : k < as.length) (hk' : k < bs.length), R as[k] bs[k] := fun k hk hk' =>
      getElem?_of_forall₂ h (List.getElem?_eq_getElem hk) (List.getElem?_eq_getElem hk')
    simp only [exchange, List.getElem?_eq_getElem, hi, hj, hi', hj']
    exact forall₂_set_set (forall₂_set_set h (hat j hj hj') i) (hat i hi hi') j
  · have hnone : as[i]? = none ∨ as[j]? = none := by
      simp only [List.getElem?_eq_none_iff]
      omega
    have hnone' : bs[i]? = none ∨ bs[j]? = none := by
      simp only [List.getElem?_eq_none_iff, ← h.length_eq] at hnone ⊢
      exact hnone
    have hsame : exchange as i j = as := by
      rw [exchange]
      rcases hnone with hnone | hnone <;> simp [hnone]
    have hsame' : exchange bs i j = bs := by
      rw [exchange]
      rcases hnone' with hnone | hnone <;> simp [hnone]
    rwa [hsame, hsame']

end Lists

theorem Memory.bytes_swap (m : Memory) (i j : Nat) : (m.swap i j).bytes = exchange m.bytes i j := by
  unfold swap exchange
  cases m.bytes[i]? <;> cases m.bytes[j]? <;> rfl

theorem Memory.ids_swap (m : Memory) (i j : Nat) : (m.swap i j).ids = m.ids := by
  rw [swap]
  split <;> rfl

theorem Memory.slice_subset (m : Memory) (start count : Nat) : m.slice start count ⊆ m.bytes :=
  fun _ hb => List.mem_of_mem_drop (List.mem_of_mem_take hb)

theorem Memory.copy_subset (m : Memory) (start count dest : Nat) :
    (m.copy start count dest).bytes ⊆ m.bytes := by
  intro b hb
  rcases List.mem_append.1 (overwrite_subset _ _ _ hb) with hb | hb
  · exact hb
  · exact m.slice_subset start count hb

/-! ## Two memories -/

/-- A step of work on a memory. -/
inductive MemoryStep where
  /-- stores a value at a type -/
  | store (start : Nat) (v : SymValue) (ty : Ty)
  /-- loads a value of a type, and keeps it if it is made of the loaded bytes -/
  | load (start count : Nat) (ty : Ty)
  /-- stores the value that was kept under a number -/
  | storeLoaded (number start : Nat) (ty : Ty)
  /-- copies bytes as they are -/
  | copy (start count dest : Nat)
  /-- tags bytes anew -/
  | retag (start count : Nat)
  /-- exchanges two bytes -/
  | swap (i j : Nat)

/-- Whether a value that the step stores stands for a concrete one. -/
def MemoryStep.Admissible (machine : Machine) : MemoryStep → Prop
  | .store _ v ty => ∃ d, machine.StandsFor v ty d
  | _ => True

/-- A value made of loaded bytes, with the plain bytes that were loaded beside it. -/
structure Loaded where
  /-- the bytes of the value, least significant first -/
  bytes : List SymByte
  /-- the type that they were loaded at -/
  ty : Ty
  /-- the plain bytes, as they lay in memory -/
  raw : List UInt8

/-- A memory of symbolic bytes beside one of plain bytes. -/
structure Twin where
  /-- the memory of symbolic bytes -/
  memory : Memory
  /-- the plain bytes, by their address -/
  raw : List UInt8
  /-- the values that were kept, in the order in which they were loaded -/
  loads : List Loaded

/-- The plain bytes that storing a value at a type writes. -/
def Machine.rawBytes (machine : Machine) (v : SymValue) (ty : Ty) : List UInt8 :=
  match machine.concretize v with
  | .ok d => machine.target.arrange (machine.storedBytes d ty)
  | .error _ => []

namespace Twin

/-- The empty memories. -/
def empty (ids : StoreIds) : Twin := ⟨.empty ids, [], []⟩

/-- The memories after a store, which writes plain bytes only if it succeeds. -/
def commit (t : Twin) (start : Nat) (new : List UInt8) : Outcome Unit × Memory → Twin
  | (.ok (), memory) => { t with memory := memory, raw := overwrite t.raw start new }
  | (.error _, memory) => { t with memory := memory }

/-- The memories after one step. -/
def step (machine : Machine) (t : Twin) : MemoryStep → Twin
  | .store start v ty =>
    t.commit start (machine.rawBytes v ty) (t.memory.store machine start v ty)
  | .load start count ty =>
    match t.memory.load machine start count ty with
    | .ok (.concat bytes u) =>
      { t with loads := t.loads ++ [⟨bytes, u, (t.raw.drop start).take count⟩] }
    | _ => t
  | .storeLoaded number start ty =>
    match t.loads[number]? with
    | some l => t.commit start l.raw (t.memory.store machine start (.concat l.bytes l.ty) ty)
    | none => t
  | .copy start count dest =>
    { t with
      memory := t.memory.copy start count dest
      raw := overwrite t.raw dest ((t.raw.drop start).take count) }
  | .retag start count => { t with memory := (t.memory.retag start count).2 }
  | .swap i j => { t with memory := t.memory.swap i j, raw := exchange t.raw i j }

/-- The memories after a list of steps. -/
def run (machine : Machine) (t : Twin) (steps : List MemoryStep) : Twin :=
  steps.foldl (step machine) t

/-- All symbolic bytes at hand, in memory and in the values that were kept. -/
def pool (t : Twin) : List SymByte := t.memory.bytes ++ t.loads.flatMap Loaded.bytes

/-! ## The invariant -/

/-- Whether the symbolic bytes stand for the plain bytes beside them. -/
structure Sound (machine : Machine) (t : Twin) : Prop where
  /-- the memories agree byte by byte -/
  backed : List.Forall₂ machine.Backed t.memory.bytes t.raw
  /-- so does what was loaded -/
  loaded : ∀ l ∈ t.loads, List.Forall₂ machine.Backed l.bytes (machine.target.arrange l.raw)
  /-- bytes under one id belong to one store -/
  tagged : ∃ first, Tagged first t.memory.ids t.pool

variable {machine : Machine} {t : Twin}

theorem sound_empty (machine : Machine) (ids : StoreIds) : (empty ids).Sound machine where
  backed := .nil
  loaded _ hl := absurd hl List.not_mem_nil
  tagged := ⟨_, Tagged.nil ids⟩

/-- The ids of the bytes in memory stand for parents, so entangled bytes have one parent. -/
theorem Sound.owned (h : t.Sound machine) {a b : SymByte} (ha : a ∈ t.memory.bytes)
    (hb : b ∈ t.memory.bytes) (hid : a.storeId = b.storeId) : a.parent = b.parent := by
  obtain ⟨_, htagged⟩ := h.tagged
  exact (htagged.owned a (List.mem_append_left _ ha) b (List.mem_append_left _ hb) hid).1

/-- Other bytes may take the place of those in memory if they agree with plain bytes and come from
memory or were tagged later. What was kept stays sound beside them, since all of it was tagged
before. -/
theorem Sound.replace (h : t.Sound machine) {ids' : StoreIds} {bytes new : List SymByte}
    {raw : List UInt8} (hbacked : List.Forall₂ machine.Backed bytes raw)
    (hbytes : bytes ⊆ t.memory.bytes ++ new) (hnew : Tagged t.memory.ids.next ids' new) :
    Sound machine ⟨⟨bytes, ids'⟩, raw, t.loads⟩ where
  backed := hbacked
  loaded := h.loaded
  tagged := by
    obtain ⟨first, htagged⟩ := h.tagged
    exact ⟨first, htagged.replace hbytes hnew⟩

/-- An attempt to write bytes that agree with plain bytes keeps the memories in step. One that fails
may have taken ids, which then belong to no byte. -/
theorem Sound.commit (h : t.Sound machine) {start : Nat} {new : List UInt8}
    {result : Outcome (List SymByte) × StoreIds} (hids : t.memory.ids.next ≤ result.2.next)
    (hresult : ∀ out ids', result = (.ok out, ids') →
      List.Forall₂ machine.Backed out new ∧ Tagged t.memory.ids.next ids' out) :
    (t.commit start new (t.memory.commit start result)).Sound machine := by
  obtain ⟨fault | out, ids'⟩ := result
  · -- nothing is written, but ids may have been taken
    have hnil : Tagged t.memory.ids.next ids' [] := (Tagged.nil _).later hids
    exact h.replace h.backed (List.subset_append_left ..) hnil
  · obtain ⟨hbacked, htagged⟩ := hresult out ids' rfl
    exact h.replace (forall₂_overwrite h.backed hbacked start) (overwrite_subset ..) htagged

/-! ## One step -/

/-- A stored value and the bytes of what it is decided as keep the memories in step. -/
theorem Sound.store (h : t.Sound machine) (start : Nat) {v : SymValue} {ty : Ty} {d : Value}
    (hd : machine.StandsFor v ty d) : (t.step machine (.store start v ty)).Sound machine := by
  apply h.commit (machine.next_le_encode ..)
  intro out ids' hout
  refine ⟨?_, tagged_encode_of_plain hd.plain hout⟩
  rw [(Machine.encode_eq_ok_of_plain hd.plain hout).1]
  simp only [Machine.rawBytes, hd.whole]
  exact Target.forall₂_arrange.2 (Machine.backed_run hd ..)

/-- A number does not depend on the id that a byte is tagged with. Bytes keep parent and index when
they are tagged anew, and these alone decide the number. -/
theorem backed_retag {bytes out : List SymByte} {raw : List UInt8} {ids ids' : StoreIds}
    (hbytes : List.Forall₂ machine.Backed bytes raw) (h : retag bytes ids = (.ok out, ids')) :
    List.Forall₂ machine.Backed out raw := by
  rw [(retag_eq_ok h).1, List.forall₂_map_left_iff]
  exact hbytes.imp fun _ _ hb => ⟨hb.carries, hb.plain⟩

/-- A kept value is stored as the bytes that it was loaded from, in whatever memory has become
meanwhile. Its bytes keep their parents, so they stand for the numbers that they stood for when they
were loaded. -/
theorem Sound.storeLoaded (h : t.Sound machine) (number start : Nat) (ty : Ty) :
    (t.step machine (.storeLoaded number start ty)).Sound machine := by
  simp only [step]
  split
  · rename_i l hl
    have hmem := List.mem_of_getElem? hl
    obtain ⟨first, htagged⟩ := h.tagged
    apply h.commit (machine.next_le_encode ..)
    intro out ids' hout
    obtain ⟨tagged, hretag, rfl⟩ := Machine.encode_eq_ok_of_concat hout
    have hsub : l.bytes ⊆ t.pool := fun b hb =>
      List.mem_append_right _ (List.mem_flatMap.2 ⟨l, hmem, hb⟩)
    constructor
    · -- storing turns the bytes into the order that they were loaded in
      rw [← machine.target.arrange_arrange l.raw, Target.forall₂_arrange]
      exact backed_retag (h.loaded l hmem) hretag
    · exact (tagged_retag (htagged.mono hsub) hretag).mono fun b hb => Target.mem_arrange.1 hb
  · exact h

/-- A load leaves memory as it is, and what is kept of it stands for the plain bytes in its place.
-/
theorem Sound.load (h : t.Sound machine) (start count : Nat) (ty : Ty) :
    (t.step machine (.load start count ty)).Sound machine := by
  simp only [step]
  split
  · rename_i bytes u hload
    have hslice : List.Forall₂ machine.Backed (t.memory.slice start count)
        ((t.raw.drop start).take count) := forall₂_slice h.backed start count
    -- no byte in memory belongs to a store of loaded bytes, so the kept value is made of the slice
    have hplain : ∀ b ∈ t.memory.slice start count, ∀ loaded u, b.parent ≠ .concat loaded u := by
      intro b hb
      obtain ⟨_, -, hbacked⟩ := exists_mem_of_forall₂ hslice hb
      exact hbacked.plain
    obtain rfl := Machine.of_decode_eq_concat hplain hload
    obtain ⟨first, htagged⟩ := h.tagged
    refine ⟨h.backed, ?_, first, htagged.mono ?_⟩
    · intro l hl
      rcases List.mem_append.1 hl with hl | hl
      · exact h.loaded l hl
      · obtain rfl := List.mem_singleton.1 hl
        exact Target.forall₂_arrange.2 hslice
    · -- a load brings no new bytes to hand
      intro b hb
      simp only [pool, List.flatMap_append, List.flatMap_singleton, List.mem_append,
        Target.mem_arrange] at hb ⊢
      rcases hb with hb | hb | hb
      · exact .inl hb
      · exact .inr hb
      · exact .inl (t.memory.slice_subset start count hb)
  · exact h

/-- Copied bytes share their ids with the bytes that they are copies of, which is sound as they
share the parent as well. -/
theorem Sound.copy (h : t.Sound machine) (start count dest : Nat) :
    (t.step machine (.copy start count dest)).Sound machine := by
  have hcopy := t.memory.copy_subset start count dest
  exact h.replace (forall₂_overwrite h.backed (forall₂_slice h.backed start count) dest)
    (List.Subset.trans hcopy (List.subset_append_left _ [])) (Tagged.nil _)

/-- Tagging bytes anew keeps the memories in step, and no plain byte changes for it. -/
theorem Sound.retag (h : t.Sound machine) (start count : Nat) :
    (t.step machine (.retag start count)).Sound machine := by
  -- to tag bytes anew is to write the same plain bytes where they are
  have hstep : t.step machine (.retag start count) =
      t.commit start ((t.raw.drop start).take count) (t.memory.retag start count) := by
    rw [step]
    rcases t.memory.retag start count with ⟨fault | _, m⟩
    · rfl
    · rw [Twin.commit, overwrite_slice]
  rw [hstep]
  obtain ⟨first, htagged⟩ := h.tagged
  have hslice : t.memory.slice start count ⊆ t.pool :=
    List.Subset.trans (t.memory.slice_subset start count) (List.subset_append_left ..)
  exact h.commit (next_le_retag ..) fun out ids' hout =>
    ⟨backed_retag (forall₂_slice h.backed start count) hout,
      tagged_retag (htagged.mono hslice) hout⟩

/-- An exchange tears stores apart, but no byte loses its parent. -/
theorem Sound.swap (h : t.Sound machine) (i j : Nat) :
    (t.step machine (.swap i j)).Sound machine := by
  have hreplace := h.replace (forall₂_exchange h.backed i j)
    (List.Subset.trans (exchange_subset _ i j) (List.subset_append_left _ [])) (Tagged.nil _)
  rwa [← Memory.bytes_swap, ← Memory.ids_swap t.memory i j] at hreplace

/-- Every step keeps the memories in step. Only stored values have to stand for anything; loads,
copies and the rest may be of any range, whatever lies there. -/
theorem Sound.step (h : t.Sound machine) {s : MemoryStep} (hs : s.Admissible machine) :
    (t.step machine s).Sound machine := by
  cases s with
  | store start v ty =>
    obtain ⟨d, hd⟩ := hs
    exact h.store start hd
  | load start count ty => exact h.load start count ty
  | storeLoaded number start ty => exact h.storeLoaded number start ty
  | copy start count dest => exact h.copy start count dest
  | retag start count => exact h.retag start count
  | swap i j => exact h.swap i j

/-! ## Runs -/

/-- A run keeps the memories in step, as each of its steps does. -/
theorem Sound.run (h : t.Sound machine) {steps : List MemoryStep}
    (hsteps : ∀ s ∈ steps, s.Admissible machine) : (t.run machine steps).Sound machine := by
  induction steps generalizing t with
  | nil => exact h
  | cons s steps ih =>
    obtain ⟨hs, hsteps⟩ := List.forall_mem_cons.1 hsteps
    exact ih (h.step hs) hsteps

/-- After any run, every load of a type is decided as the value that the plain bytes spell in its
place, up to the provenance of addresses, and a load of another number of bytes than the type has
fails as those do. So a memory of symbolic bytes cannot be told from a plain one, however its stores
were cut up and put together. No list has as many bytes as the largest size, at which sizes are no
longer exact. -/
theorem load_run {target : Target} (hp : target.pointerSize ≤ 8) (ids : StoreIds)
    {steps : List MemoryStep} (hsteps : ∀ s ∈ steps, s.Admissible (.standard target)) :
    let machine := Machine.standard target
    let t := (empty ids).run machine steps
    t.memory.bytes.length = t.raw.length ∧
    ∀ start count ty, ty.Supported → (t.memory.slice start count).length < maxSize →
      let raw := target.arrange ((t.raw.drop start).take count)
      ((t.memory.slice start count).length = target.byteSize ty →
        ∃ v d, t.memory.load machine start count ty = .ok v ∧ machine.concretize v = .ok d ∧
          machine.ofBytes ty raw = .ok d.withWildcards) ∧
      ((t.memory.slice start count).length ≠ target.byteSize ty →
        ∃ fault fault', t.memory.load machine start count ty >>= machine.concretize =
          .error fault ∧ machine.ofBytes ty raw = .error fault') := by
  intro machine t
  have h : t.Sound machine := (sound_empty machine ids).run hsteps
  refine ⟨h.backed.length_eq, ?_⟩
  intro start count ty hty hlt
  have hslice : List.Forall₂ machine.Backed (t.memory.slice start count)
      ((t.raw.drop start).take count) := forall₂_slice h.backed start count
  have hsub : ∀ b ∈ t.memory.slice start count, b ∈ t.memory.bytes := fun b hb =>
    List.mem_of_mem_drop (List.mem_of_mem_take hb)
  constructor
  · intro hlen
    exact Machine.exists_concretize_decode hp hslice
      (fun a ha b hb => h.owned (hsub a ha) (hsub b hb)) hty hlt hlen
  · intro hlen
    exact Machine.exists_error_of_length_ne hlen hslice.length_eq.symm hty

/-! ## A run -/

/-- A big-endian target with pointers of four bytes. -/
def bigEndianTarget : Target :=
  { Target.standard with endian := .big, pointerSize := 4, pointerSize_le := by decide }

/-- A number and a sum are stored side by side and one byte of the number is overwritten. What is
left of the number is loaded and stored again behind the sum. Then two bytes are copied into the
sum, all bytes before the copy are tagged anew, and the first and the last of them are exchanged. -/
def mixedSteps : List MemoryStep :=
  [.store 0 (.scalar (.int ⟨.i32, 0x11223344⟩)) (.int 32),
    .store 4 (.binary (.int (.add false false)) (.scalar (.int ⟨.i32, 0x01020000⟩))
      (.scalar (.int ⟨.i32, 0x304⟩))) (.int 32),
    .store 1 (.scalar (.int ⟨.i8, 0xAA⟩)) (.int 8), .load 0 4 (.int 32),
    .storeLoaded 0 8 (.vector 4 (.int 8)), .copy 8 2 5, .retag 0 8, .swap 0 7]

/-- Eight bytes of three stores, one of which was never decided before it was cut up, are loaded as
a number that none of the stores wrote. -/
theorem load_mixedSteps :
    (∀ s ∈ mixedSteps, s.Admissible (.standard bigEndianTarget)) ∧
      ∃ v d, ((empty .all).run (.standard bigEndianTarget) mixedSteps).memory.load
          (.standard bigEndianTarget) 0 8 (.int 64) = .ok v ∧
        (Machine.standard bigEndianTarget).concretize v = .ok d ∧
        d.withWildcards = .int ⟨.i64, 0x04AA33440111AA11⟩ := by
  have hnumber : MemoryStep.Admissible (.standard bigEndianTarget) mixedSteps[0] :=
    ⟨_, .of_int rfl (by simp) rfl rfl (by decide)⟩
  have hsum : MemoryStep.Admissible (.standard bigEndianTarget) mixedSteps[1] :=
    ⟨_, .of_int rfl (by simp) rfl rfl (by decide)⟩
  have hbyte : MemoryStep.Admissible (.standard bigEndianTarget) mixedSteps[2] :=
    ⟨_, .of_int rfl (by simp) rfl rfl (by decide)⟩
  have hsteps : ∀ s ∈ mixedSteps, s.Admissible (.standard bigEndianTarget) := by
    simp only [mixedSteps, List.forall_mem_cons]
    exact ⟨hnumber, hsum, hbyte, trivial, trivial, trivial, trivial, trivial, by simp⟩
  obtain ⟨-, hloads⟩ := load_run (by decide) .all hsteps
  obtain ⟨v, d, hload, hd, hvalue⟩ := (hloads 0 8 (.int 64) (by decide) (by decide)).1 rfl
  exact ⟨hsteps, v, d, hload, hd, Except.ok.inj (hvalue.symm.trans rfl)⟩

end Twin

end SymbolicBytes
