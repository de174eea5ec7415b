import SymbolicBytes.Memory.Session
import SymbolicBytes.Proofs.ByteMemory
/-!
# Store ids over a session

Values are stored, loaded and stored again when the bytes that they were loaded from are long gone,
and bytes are copied, exchanged and tagged anew. Through all of it an id of a byte in memory stands
for one store: bytes are entangled exactly if they have one id, and an id that is handed out occurs
nowhere yet (`Session.tellsStoresApart_run`).

The invariant is `Session.IdSound`, on the bytes in memory together with those of the named values.
`Session.IdSound.step` is the step lemma.
-/

namespace SymbolicBytes

/-! ## Values and their bytes -/

namespace SymValue

/-- Whether the value is not made of loaded bytes. -/
def Plain (v : SymValue) : Prop := ∀ bytes ty, v ≠ .concat bytes ty

/-- The bytes that a value is made of. -/
def loadedBytes : SymValue → List SymByte
  | .concat bytes _ => bytes
  | _ => []

theorem Plain.loadedBytes_eq_nil {v : SymValue} (h : v.Plain) : v.loadedBytes = [] := by
  unfold loadedBytes
  split
  · exact absurd rfl (h _ _)
  · rfl

/-- Whether the value, if it is a byte, has another id. -/
def OtherByte (id : Nat) : SymValue → Prop
  | .byte b => b.storeId ≠ id
  | _ => True

/-- Whether no byte inside the value has the id. -/
def Avoids (id : Nat) (v : SymValue) : Prop := v.AllParts (OtherByte id)

end SymValue

namespace SymByte

/-- Whether neither the byte nor any byte inside it has the id. -/
def Avoids (id : Nat) (b : SymByte) : Prop := b.AllParts (SymValue.OtherByte id)

/-- Whether the byte was stored as part of a value with a property. -/
structure StoredFrom (P : SymValue → Prop) (b : SymByte) : Prop where
  /-- the value has the property -/
  parent : P b.parent
  /-- the position is written out -/
  index : ∃ i, b.index = .iptr i

/-- A byte whose store does not have an id inside it does not have it inside either. -/
theorem StoredFrom.avoids {P : SymValue → Prop} {id : Nat} {b : SymByte} (h : b.StoredFrom P)
    (hP : ∀ v, P v → v.Avoids id) (hid : b.storeId ≠ id) : b.Avoids id := by
  obtain ⟨i, hindex⟩ := h.index
  refine allParts_iff.2 ⟨hid, hP _ h.parent, ?_⟩
  rw [hindex]
  exact SymValue.allParts_scalar.2 trivial

end SymByte

section Stored

variable {machine : Machine} {P : SymValue → Prop} {ids ids' : StoreIds} {bytes out : List SymByte}

theorem storedFrom_encode_of_plain {v : SymValue} {ty : Ty} (hv : P v) (hplain : v.Plain)
    (h : machine.encode v ty ids = (.ok out, ids')) : ∀ b ∈ out, b.StoredFrom P := by
  intro b hb
  rw [(Machine.encode_eq_ok_of_plain hplain h).1, Target.mem_arrange] at hb
  obtain ⟨i, -, rfl⟩ := List.mem_map.1 hb
  exact ⟨hv, i, rfl⟩

/-- Tagging bytes anew does not change what they were stored as part of. -/
theorem storedFrom_retag (hbytes : ∀ b ∈ bytes, b.StoredFrom P)
    (h : retag bytes ids = (.ok out, ids')) : ∀ b ∈ out, b.StoredFrom P := by
  rw [(retag_eq_ok h).1]
  intro b hb
  obtain ⟨b₀, hb₀, rfl⟩ := List.mem_map.1 hb
  exact ⟨(hbytes b₀ hb₀).parent, (hbytes b₀ hb₀).index⟩

end Stored

theorem Memory.ids_commit (m : Memory) (start : Nat)
    (result : Outcome (List SymByte) × StoreIds) : (m.commit start result).2.ids = result.2 := by
  obtain ⟨_ | _, _⟩ := result <;> rfl

namespace Session

variable {machine : Machine} {s : Session} {P : SymValue → Prop}

/-! ## Sessions that do not make up bytes -/

/-- Whether the values that a step brings in have a property, except that a named value may be
stored. -/
def Admits (P : SymValue → Prop) (s : Session) : Step → Prop
  | .name _ v => P v
  | .store _ v _ => P v ∨ ∃ name, (name, v) ∈ s.names
  | _ => True

/-- Whether the values that the steps of a run bring in have a property. -/
def AdmitsAll (machine : Machine) (P : SymValue → Prop) : Session → List Step → Prop
  | _, [] => True
  | s, step :: steps => s.Admits P step ∧ AdmitsAll machine P (s.step machine step).2 steps

/-- Whether the step takes the id from the supply. -/
def HandsOut (machine : Machine) (s : Session) (step : Step) (id : Nat) : Prop :=
  s.memory.ids.next ≤ id ∧ id < (s.step machine step).2.memory.ids.next

/-- Whether the value has a name or can be loaded. -/
inductive AtHand (machine : Machine) (s : Session) (v : SymValue) : Prop where
  /-- the value has a name -/
  | named (name : String) (h : (name, v) ∈ s.names)
  /-- the value can be loaded -/
  | loaded (start count : Nat) (ty : Ty) (h : s.memory.load machine start count ty = .ok v)

/-- All bytes of the session, in memory and in the named values. -/
def pool (s : Session) : List SymByte :=
  s.memory.bytes ++ s.names.flatMap fun p => p.2.loadedBytes

/-! ## The invariant -/

/-- Whether the ids of all bytes, from `first` on, stand for stores of values with a property. -/
structure IdSound (first : Nat) (P : SymValue → Prop) (s : Session) : Prop where
  /-- bytes under one id belong to one store -/
  tagged : Tagged first s.memory.ids s.pool
  /-- the stored values have the property -/
  stored : ∀ b ∈ s.pool, b.StoredFrom P
  /-- a named value has the property or is made of bytes -/
  named : ∀ name v, (name, v) ∈ s.names → P v ∨ ∃ bytes ty, v = .concat bytes ty

/-- Whether the property leaves out the values that are made of loaded bytes. The value without
bytes has it, as any memory can be asked for that one. -/
structure Unloaded (P : SymValue → Prop) : Prop where
  /-- no value with the property is made of loaded bytes -/
  plain : ∀ v, P v → v.Plain
  /-- the value without bytes has the property -/
  void : P .void

/-- Whether a value has a property or is made of bytes of the session. -/
def MadeOf (s : Session) (P : SymValue → Prop) (v : SymValue) : Prop :=
  P v ∨ ∃ bytes ty, v = .concat bytes ty ∧ bytes ⊆ s.pool

theorem MadeOf.loadedBytes_subset {v : SymValue} (hv : s.MadeOf P v) (hP : Unloaded P) :
    v.loadedBytes ⊆ s.pool := by
  rcases hv with hv | ⟨bytes, ty, rfl, hsub⟩
  · rw [(hP.plain v hv).loadedBytes_eq_nil]
    exact List.nil_subset _
  · exact hsub

theorem slice_subset_pool (s : Session) (start count : Nat) :
    s.memory.slice start count ⊆ s.pool :=
  List.Subset.trans (s.memory.slice_subset start count) (List.subset_append_left ..)

theorem idSound_start (used : Nat) (P : SymValue → Prop) :
    (start (.above used)).IdSound (StoreIds.above used).next P where
  tagged := Tagged.nil _
  stored _ hb := absurd hb List.not_mem_nil
  named _ _ hv := absurd hv List.not_mem_nil

namespace IdSound

variable {first : Nat}

/-- Other bytes may take the place of those in memory if they come from memory or were stored or
tagged later. The named values keep their bytes, which memory need not have any more. -/
theorem replace (h : s.IdSound first P) {ids' : StoreIds} {bytes new : List SymByte}
    (hbytes : bytes ⊆ s.memory.bytes ++ new) (hnew : Tagged s.memory.ids.next ids' new)
    (hstored : ∀ b ∈ new, b.StoredFrom P) :
    IdSound first P { s with memory := ⟨bytes, ids'⟩ } where
  tagged := h.tagged.replace hbytes hnew
  stored b hb := by
    rcases List.mem_append.1 hb with hb | hb
    · rcases List.mem_append.1 (hbytes hb) with hb | hb
      · exact h.stored b (List.mem_append_left _ hb)
      · exact hstored b hb
    · exact h.stored b (List.mem_append_right _ hb)
  named := h.named

/-- The bytes in memory may be rearranged, and ids may be lost. -/
theorem rearrange (h : s.IdSound first P) {ids' : StoreIds} {bytes : List SymByte}
    (hbytes : bytes ⊆ s.memory.bytes) (hids : s.memory.ids.next ≤ ids'.next) :
    IdSound first P { s with memory := ⟨bytes, ids'⟩ } :=
  h.replace (List.Subset.trans hbytes (List.subset_append_left _ [])) ((Tagged.nil _).later hids)
    fun _ hb => absurd hb List.not_mem_nil

/-- An attempt to write bytes that were stored or tagged later keeps the invariant, also if it fails
after it took ids. -/
theorem commit (h : s.IdSound first P) {start : Nat}
    {result : Outcome (List SymByte) × StoreIds} (hids : s.memory.ids.next ≤ result.2.next)
    (hresult : ∀ out ids', result = (.ok out, ids') →
      Tagged s.memory.ids.next ids' out ∧ ∀ b ∈ out, b.StoredFrom P) :
    (s.onBytes (s.memory.commit start result)).2.IdSound first P := by
  obtain ⟨fault | out, ids'⟩ := result
  · -- nothing is written, but ids may have been taken
    exact h.rearrange (List.Subset.refl _) hids
  · obtain ⟨htagged, hstored⟩ := hresult out ids' rfl
    exact h.replace (overwrite_subset ..) htagged hstored

theorem bind (h : s.IdSound first P) (hP : Unloaded P) {v : SymValue} (hv : s.MadeOf P v)
    (name : String) : (s.bind name v).IdSound first P := by
  have hbytes := hv.loadedBytes_subset hP
  -- a name brings no new bytes into the session
  have hpool : (s.bind name v).pool ⊆ s.pool := by
    intro b hb
    rcases List.mem_append.1 hb with hb | hb
    · exact List.mem_append_left _ hb
    · rw [Session.bind, List.flatMap_cons] at hb
      rcases List.mem_append.1 hb with hb | hb
      · exact hbytes hb
      · exact List.mem_append_right _ hb
  refine ⟨h.tagged.mono hpool, fun b hb => h.stored b (hpool hb), ?_⟩
  intro other w hw
  rcases List.mem_cons.1 hw with heq | hw
  · cases heq
    exact hv.imp_right fun ⟨bytes, ty, hv, _⟩ => ⟨bytes, ty, hv⟩
  · exact h.named other w hw

/-! ## Values at hand -/

/-- A value that was named was loaded, so it has the property or is made of bytes of the session. -/
theorem madeOf_named (h : s.IdSound first P) {name : String} {v : SymValue}
    (hv : (name, v) ∈ s.names) : s.MadeOf P v := by
  refine (h.named name v hv).imp_right ?_
  rintro ⟨bytes, ty, rfl⟩
  exact ⟨bytes, ty, rfl, fun b hb =>
    List.mem_append_right _ (List.mem_flatMap.2 ⟨_, hv, hb⟩)⟩

/-- What is loaded was stored, or is made of bytes in memory. -/
theorem madeOf_loaded (h : s.IdSound first P) (hP : Unloaded P) {start count : Nat} {ty : Ty}
    {v : SymValue} (hv : s.memory.load machine start count ty = .ok v) : s.MadeOf P v := by
  have hslice := s.slice_subset_pool start count
  rcases Machine.of_decode_eq_ok hv with rfl | ⟨b, hb, rfl⟩ | rfl
  · exact .inl hP.void
  · exact .inl (h.stored b (hslice hb)).parent
  · exact .inr ⟨_, ty, rfl, fun b hb => hslice (Target.mem_arrange.1 hb)⟩

theorem madeOf_atHand (h : s.IdSound first P) (hP : Unloaded P) {v : SymValue}
    (hv : s.AtHand machine v) : s.MadeOf P v := by
  cases hv with
  | named name hv => exact h.madeOf_named hv
  | loaded start count ty hv => exact h.madeOf_loaded hP hv

/-! ## One step -/

theorem store (h : s.IdSound first P) (hP : Unloaded P) {v : SymValue}
    (hv : s.MadeOf P v) (start : Nat) (ty : Ty) :
    (s.step machine (.store start v ty)).2.IdSound first P := by
  refine h.commit (machine.next_le_encode ..) ?_
  intro out ids' hout
  rcases hv with hv | ⟨bytes, u, rfl, hsub⟩
  · have hplain := hP.plain v hv
    exact ⟨tagged_encode_of_plain hplain hout, storedFrom_encode_of_plain hv hplain hout⟩
  · -- stale bytes take ids that no byte has, and their parents are as they were
    obtain ⟨tagged, hretag, rfl⟩ := Machine.encode_eq_ok_of_concat hout
    have harrange : machine.target.arrange tagged ⊆ tagged := fun b hb => Target.mem_arrange.1 hb
    have hstored := storedFrom_retag (fun b hb => h.stored b (hsub hb)) hretag
    exact ⟨(tagged_retag (h.tagged.mono hsub) hretag).mono harrange,
      fun b hb => hstored b (harrange hb)⟩

theorem load (h : s.IdSound first P) (hP : Unloaded P) (start count : Nat) (ty : Ty)
    (name : Option String) : (s.step machine (.load start count ty name)).2.IdSound first P := by
  simp only [Session.step]
  split
  · exact h
  · exact h
  · rename_i hv
    exact h.bind hP (h.madeOf_loaded hP hv) _

theorem copy (h : s.IdSound first P) (start count dest : Nat) :
    (s.step machine (.copy start count dest)).2.IdSound first P :=
  h.rearrange (s.memory.copy_subset start count dest) (Nat.le_refl _)

theorem retag (h : s.IdSound first P) (start count : Nat) :
    (s.step machine (.retag start count)).2.IdSound first P := by
  have hslice := s.slice_subset_pool start count
  exact h.commit (next_le_retag ..) fun out ids' hout =>
    ⟨tagged_retag (h.tagged.mono hslice) hout,
      storedFrom_retag (fun b hb => h.stored b (hslice hb)) hout⟩

theorem swap (h : s.IdSound first P) (a b : Nat) :
    (s.step machine (.swap a b)).2.IdSound first P := by
  have hswap := h.rearrange (exchange_subset s.memory.bytes a b) (Nat.le_refl _)
  rwa [← Memory.bytes_swap, ← Memory.ids_swap s.memory a b] at hswap

theorem fresh (h : s.IdSound first P) : (s.step machine .fresh).2.IdSound first P :=
  h.rearrange (List.Subset.refl _) s.memory.ids.next_le_fresh

/-- Every step keeps the invariant. The bytes of named values are part of it, as they may be stored
again when memory has long other ones. -/
theorem step (h : s.IdSound first P) (hP : Unloaded P) {step : Step} (hstep : s.Admits P step) :
    (s.step machine step).2.IdSound first P := by
  cases step with
  | name name v => exact h.bind hP (.inl hstep) name
  | store start v ty =>
    refine h.store hP ?_ start ty
    rcases hstep with hv | ⟨name, hv⟩
    · exact .inl hv
    · exact h.madeOf_named hv
  | load start count ty name => exact h.load hP start count ty name
  | copy start count dest => exact h.copy start count dest
  | retag start count => exact h.retag start count
  | swap a b => exact h.swap a b
  | fresh => exact h.fresh
  -- the other steps only look at the session
  | read start count ty => exact h
  | concretize v => exact h
  | compare a b => exact h
  | classes => exact h
  | equal v w => exact h

/-! ## Runs -/

/-- A run keeps the invariant, as each of its steps does. -/
theorem run (h : s.IdSound first P) (hP : Unloaded P) {steps : List Step}
    (hsteps : s.AdmitsAll machine P steps) : (s.run machine steps).IdSound first P := by
  induction steps generalizing s with
  | nil => exact h
  | cons step steps ih => exact ih (h.step hP hsteps.1) hsteps.2

end IdSound

/-! ## Ids that are handed out later -/

@[simp] theorem memory_onBytes (s : Session) (result : Outcome Unit × Memory) :
    (s.onBytes result).2.memory = result.2 := by
  obtain ⟨_ | _, _⟩ := result <;> rfl

theorem next_le_step (machine : Machine) (s : Session) (step : Step) :
    s.memory.ids.next ≤ (s.step machine step).2.memory.ids.next := by
  cases step with
  | store start v ty =>
    simp only [Session.step, memory_onBytes, Memory.store, Memory.ids_commit]
    exact machine.next_le_encode v ty _
  | load start count ty name =>
    simp only [Session.step]
    split <;> exact Nat.le_refl _
  | retag start count =>
    simp only [Session.step, memory_onBytes, Memory.retag, Memory.ids_commit]
    exact next_le_retag _ _
  | swap a b =>
    simp only [Session.step, memory_onBytes, Memory.ids_swap]
    exact Nat.le_refl _
  | fresh => exact s.memory.ids.next_le_fresh
  | name | read | concretize | copy | compare | classes | equal => exact Nat.le_refl _

theorem next_le_run (machine : Machine) (s : Session) (steps : List Step) :
    s.memory.ids.next ≤ (s.run machine steps).memory.ids.next := by
  induction steps generalizing s with
  | nil => exact Nat.le_refl _
  | cons step steps ih => exact Nat.le_trans (next_le_step machine s step) (ih _)

/-- Whether the ids of the bytes in memory, all above `used`, tell apart the stores that the bytes
come from, now and whatever is stored next. -/
structure TellsStoresApart (machine : Machine) (used : Nat) (s : Session) : Prop where
  /-- the ids were handed out by the supply -/
  between : ∀ b ∈ s.memory.bytes, used < b.storeId ∧ b.storeId < s.memory.ids.next
  /-- bytes under one id refer to one parent, stored at one type -/
  owned : ∀ a ∈ s.memory.bytes, ∀ b ∈ s.memory.bytes, a.storeId = b.storeId →
    a.parent = b.parent ∧ a.ref = b.ref ∧ a.ty = b.ty
  /-- bytes are entangled exactly if they have one id -/
  entangled : ∀ a ∈ s.memory.bytes, ∀ b ∈ s.memory.bytes,
    (a.entangled b = true ↔ a.storeId = b.storeId)
  /-- entangled bytes are grouped as bytes with one id are -/
  classes : SymbolicBytes.classes SymByte.entangled s.memory.bytes =
    SymbolicBytes.classes SymByte.sameStore s.memory.bytes
  /-- an id that is handed out later is not that of a byte in memory or of one that a value at hand
  is made of -/
  fresh : ∀ later step id, (s.run machine later).HandsOut machine step id →
    (∀ b ∈ s.memory.bytes, b.storeId ≠ id) ∧
      ∀ v, s.AtHand machine v → ∀ b ∈ v.loadedBytes, b.storeId ≠ id

namespace IdSound

variable {first used : Nat}

/-- No byte has an id that is handed out later, in memory or in a named value. -/
theorem storeId_ne (h : s.IdSound first P) {later : List Step} {step : Step} {id : Nat}
    (hid : (s.run machine later).HandsOut machine step id) {b : SymByte} (hb : b ∈ s.pool) :
    b.storeId ≠ id := by
  have hlt := (h.tagged.used b hb).2
  have hle := next_le_run machine s later
  have hnext := hid.1
  omega

/-- Bytes are entangled exactly if they have one id. In general entangled bytes need one parent
besides, which is implied here. -/
theorem entangled_iff (h : s.IdSound first P) {a b : SymByte} (ha : a ∈ s.pool)
    (hb : b ∈ s.pool) : a.entangled b = true ↔ a.storeId = b.storeId := by
  rw [SymByte.entangled_iff]
  constructor
  · exact And.left
  · intro hid
    exact ⟨hid, .inl (h.tagged.owned a ha b hb hid).2.1⟩

theorem tellsStoresApart (h : s.IdSound (StoreIds.above used).next P) (hP : Unloaded P) :
    s.TellsStoresApart machine used := by
  have hpool : s.memory.bytes ⊆ s.pool := List.subset_append_left ..
  refine ⟨?_, ?_, ?_, ?_, ?_⟩
  · intro b hb
    obtain ⟨hfirst, hlt⟩ := h.tagged.used b (hpool hb)
    refine ⟨?_, hlt⟩
    -- if there are no ids above `used`, none was handed out
    have hlast : s.memory.ids.next ≤ StoreIds.last := s.memory.ids.next_le
    simp only [StoreIds.above] at hfirst
    omega
  · intro a ha b hb
    exact h.tagged.owned a (hpool ha) b (hpool hb)
  · intro a ha b hb
    exact h.entangled_iff (hpool ha) (hpool hb)
  · apply classes_congr
    intro a ha b hb
    rw [Bool.eq_iff_iff, h.entangled_iff (hpool ha) (hpool hb), SymByte.sameStore, beq_iff_eq]
  · intro later step id hid
    refine ⟨fun b hb => h.storeId_ne hid (hpool hb), ?_⟩
    intro v hv b hb
    exact h.storeId_ne hid ((h.madeOf_atHand hP hv).loadedBytes_subset hP hb)

/-- If no stored value has the id of a later store inside it, then it occurs nowhere, however deep
one looks. -/
theorem avoids (h : s.IdSound first P) (hP : Unloaded P) {id : Nat}
    (havoids : ∀ v, P v → v.Avoids id) {later : List Step} {step : Step}
    (hid : (s.run machine later).HandsOut machine step id) :
    (∀ b ∈ s.memory.bytes, b.Avoids id) ∧ ∀ v, s.AtHand machine v → v.Avoids id := by
  have hbyte : ∀ b ∈ s.pool, b.Avoids id := fun b hb =>
    (h.stored b hb).avoids havoids (h.storeId_ne hid hb)
  refine ⟨fun b hb => hbyte b (List.mem_append_left _ hb), ?_⟩
  intro v hv
  rcases h.madeOf_atHand hP hv with hv | ⟨bytes, ty, rfl, hsub⟩
  · exact havoids v hv
  · exact SymValue.allParts_concat.2 ⟨trivial, fun b hb => hbyte b (hsub hb)⟩

end IdSound

theorem unloaded_plain : Unloaded SymValue.Plain where
  plain _ hv := hv
  void := nofun

theorem unloaded_avoids (id : Nat) : Unloaded fun v => v.Plain ∧ v.Avoids id where
  plain _ hv := hv.1
  void := ⟨unloaded_plain.void, SymValue.allParts_void.2 trivial⟩

/-- After any run that begins with an empty memory and the ids above `used`, and that stores values
which are not made of bytes or which it loaded, the ids in memory tell its stores apart. An id that
is handed out later does not even occur deep inside bytes and values, if it does not occur in what
the run was given to store. The values that a run is given could mention any id, so nothing more can
be said of these. -/
theorem tellsStoresApart_run {machine : Machine} {used : Nat} {steps : List Step}
    (hsteps : (start (.above used)).AdmitsAll machine SymValue.Plain steps) :
    let s := (start (.above used)).run machine steps
    s.TellsStoresApart machine used ∧
      ∀ later step id, (s.run machine later).HandsOut machine step id →
        (start (.above used)).AdmitsAll machine (fun v => v.Plain ∧ v.Avoids id) steps →
        (∀ b ∈ s.memory.bytes, b.Avoids id) ∧ ∀ v, s.AtHand machine v → v.Avoids id := by
  intro s
  constructor
  · exact ((idSound_start used _).run unloaded_plain hsteps).tellsStoresApart unloaded_plain
  · intro later step id hid havoids
    have h := (idSound_start used _).run (unloaded_avoids id) havoids
    exact h.avoids (unloaded_avoids id) (fun _ hv => hv.2) hid

/-! ## A run -/

/-- A number. -/
def number : SymValue := .scalar (.int ⟨.i32, 0x11223344⟩)

/-- A sum that is never decided, as it has two types. -/
def mixedSum : SymValue := .binary (.int (.add false false)) number (.undef (.int 8))

/-- The upper half of the number and the lower half of the sum. -/
def halves : SymValue :=
  .concat [⟨number, .stored 5, .int 32, .iptr 2, 5⟩, ⟨number, .stored 5, .int 32, .iptr 3, 5⟩,
    ⟨mixedSum, .stored 6, .int 32, .iptr 0, 6⟩, ⟨mixedSum, .stored 6, .int 32, .iptr 1, 6⟩]
    (.int 32)

/-- Two values are stored side by side and the halves that meet are loaded as one. All bytes are
tagged anew before what was loaded is stored twice, once over bytes that it came from. Then two
bytes are copied, two are exchanged, and an id is taken. -/
def staleSteps : List Step :=
  [.store 0 number (.int 32), .store 4 mixedSum (.int 32), .load 2 4 (.int 32) (some "halves"),
    .retag 0 8, .store 8 halves (.int 32), .store 3 halves (.int 32), .copy 2 2 8, .swap 0 11,
    .fresh]

theorem admitsAll_staleSteps {P : SymValue → Prop} (hnumber : P number) (hsum : P mixedSum) :
    (start (.above 4)).AdmitsAll (.standard .standard) P staleSteps :=
  ⟨.inl hnumber, .inl hsum, trivial, trivial, .inr ⟨"halves", .head _⟩,
    .inr ⟨"halves", .head _⟩, trivial, trivial, trivial, trivial⟩

/-- Twelve bytes under five ids, after stores were cut up, copied and stored again from bytes that
were gone by then. The id that would be handed out after tagging all of them anew is nowhere inside
the value that was loaded. -/
theorem tellsStoresApart_staleSteps :
    let machine := Machine.standard .standard
    let s := (start (.above 4)).run machine staleSteps
    (start (.above 4)).AdmitsAll machine SymValue.Plain staleSteps ∧
      s.TellsStoresApart machine 4 ∧
      s.memory.bytes.map SymByte.storeId = [10, 7, 7, 11, 11, 12, 12, 8, 7, 11, 10, 7] ∧
      (s.run machine [.retag 0 12]).HandsOut machine .fresh 19 ∧ s.AtHand machine halves ∧
      halves.Avoids 19 := by
  have hnumber : number.Plain ∧ number.Avoids 19 := ⟨nofun, SymValue.allParts_scalar.2 trivial⟩
  have hsum : mixedSum.Plain ∧ mixedSum.Avoids 19 :=
    ⟨nofun, SymValue.allParts_binary.2 ⟨trivial, hnumber.2, SymValue.allParts_undef.2 trivial⟩⟩
  have hsteps := admitsAll_staleSteps hnumber.1 hsum.1
  obtain ⟨hapart, hfresh⟩ := tellsStoresApart_run hsteps
  refine ⟨hsteps, hapart, rfl, ⟨by decide, by decide⟩, .named "halves" (.head _), ?_⟩
  exact (hfresh [.retag 0 12] .fresh 19 ⟨by decide, by decide⟩
    (admitsAll_staleSteps hnumber hsum)).2 halves (.named "halves" (.head _))

end Session

end SymbolicBytes
