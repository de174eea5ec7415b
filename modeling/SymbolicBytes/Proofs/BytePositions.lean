import SymbolicBytes.Proofs.PointerCasts
import SymbolicBytes.Proofs.Reloading
/-!
# Positions of stored bytes

A stored byte knows its position in two ways: as it is written out, which is how whole stores are
told, and as it is decided, which is how bytes are read one by one. As a position is a pointer-sized
integer, deciding it cuts it to the size of a pointer (`Machine.readsPositions`). So the two are the
same all over a store if and only if pointers can count its bytes, and past that point a load reads
bytes from the start of the value again.
-/

namespace SymbolicBytes.Machine

variable {machine : Machine} {decide : SymValue → Outcome Value} {v : SymValue} {ty : Ty}

/-! ## Loads from one store -/

/-- What is read of a decided value at listed positions, as a value of a type. -/
def readAt (machine : Machine) (d : Value) (ty : Ty) (positions : List Nat) (u : Ty) :
    Outcome Value :=
  if d.isPoison then .ok (.poison u)
  else gather (machine.byteAt d ty) positions >>= fun
    | none => .ok (.poison u)
    | some values => machine.ofBytes u values

/-- Bytes of one class whose positions are known are read at those positions, in the order of the
bytes. Nothing in this asks for positions to be different, or in order. -/
theorem valueOfBytesBy_eq_readAt {bytes : List SymByte} {positions : List Nat} {u : Ty}
    (hne : bytes ≠ []) (hlen : bytes.length = machine.target.byteSize u)
    (hclass : ∀ a ∈ bytes, ∀ b ∈ bytes, a.entangled b = true)
    (hbytes : List.Forall₂ (fun i b => b.parent = v ∧ b.ty = ty ∧
      indexBy decide b.index = .ok (some i)) positions bytes) :
    machine.valueOfBytesBy decide bytes u =
      decide v >>= fun d => machine.readAt d ty positions u := by
  obtain ⟨first, rest, rfl⟩ := List.exists_cons_of_ne_nil hne
  have hparent : first.parent = v := by
    obtain ⟨_, -, hfirst⟩ := exists_mem_of_forall₂ hbytes.flip (List.mem_cons_self ..)
    exact hfirst.1
  have hread (d : Value) : gather (machine.resolveByte decide d) (first :: rest) =
      gather (machine.byteAt d ty) positions := by
    refine (gather_congr (hbytes.imp ?_)).symm
    rintro i b ⟨-, rfl, hindex⟩
    rw [resolveByte, hindex, Outcome.ok_bind]
  rw [valueOfBytesBy_singleton decide hlen fun b hb =>
    hclass first (List.mem_cons_self ..) b (List.mem_cons_of_mem _ hb), hparent]
  congr 1
  funext d
  rw [readAt]
  split
  · rfl
  · -- bytes that are resolved in order are put in their places as they are
    rw [← hread]
    have hitems : gather (machine.resolveItem decide d) (first :: rest).zipIdx =
        (Option.map fun bs => bs.zipIdx.map Prod.swap) <$>
          gather (machine.resolveByte decide d) (first :: rest) := gather_zipIdx _ _ 0
    rw [hitems]
    rcases hvalues : gather (machine.resolveByte decide d) (first :: rest) with fault | _ | values
    · rfl
    · rfl
    · have hcount : (first :: rest).length = values.length :=
        (gather_eq_some_iff.1 hvalues).length_eq
      simp only [Outcome.map_ok, Option.map_some, Outcome.ok_bind, hcount, assemble_zipIdx]

/-! ## Positions in a store -/

/-- Every size is within what pointers of eight bytes can count, so the two positions never differ
there. -/
theorem byteSize_le_of_wide (hwide : 8 ≤ machine.target.pointerSize) (ty : Ty) :
    machine.target.byteSize ty ≤ 2 ^ machine.target.pointerBits := by
  have hbits : 64 ≤ machine.target.pointerBits := by
    rw [Target.pointerBits, UInt32.size]
    omega
  calc machine.target.byteSize ty
    _ ≤ 2 ^ 64 := Nat.le_of_lt (machine.target.byteSize_lt ty)
    _ ≤ 2 ^ machine.target.pointerBits := Nat.pow_le_pow_right (by decide) hbits

section Run

variable {ref : ParentRef} {id : Nat}

/-- The decided position of a byte of a store is the written one, cut to the size of a pointer. -/
theorem indexBy_run {i : Nat} {b : SymByte}
    (hb : (SymByte.run v ref ty id (machine.target.byteSize ty))[i]? = some b) (levels : Nat) :
    indexBy (machine.concretizeWithin (levels + 1)) b.index =
      .ok (some (i % 2 ^ machine.target.pointerBits)) := by
  obtain ⟨hi, rfl⟩ := getElem?_run hb
  exact indexBy_iptr (Nat.lt_trans hi (machine.target.byteSize_lt ty)) levels

/-- The two positions of every byte are the same exactly if pointers can count the bytes. The first
byte past that is at position zero again. -/
theorem indexBy_run_eq_literalIndex?_iff :
    (∀ b ∈ SymByte.run v ref ty id (machine.target.byteSize ty), ∀ levels,
        indexBy (machine.concretizeWithin (levels + 1)) b.index = .ok b.literalIndex?) ↔
      machine.target.byteSize ty ≤ 2 ^ machine.target.pointerBits := by
  constructor
  · intro hagree
    by_contra hlarge
    -- the first byte that pointers cannot count is taken for the byte at zero
    have hlen : 2 ^ machine.target.pointerBits <
        (SymByte.run v ref ty id (machine.target.byteSize ty)).length := by
      rw [SymByte.length_run]
      exact Nat.lt_of_not_le hlarge
    have hb := List.getElem?_eq_getElem hlen
    have hsame := (indexBy_run hb 0).symm.trans (hagree _ (List.mem_of_getElem? hb) 0)
    rw [literalIndex?_run hb, Nat.mod_self] at hsame
    exact absurd (Option.some.inj (Except.ok.inj hsame)).symm (Nat.ne_of_gt (Nat.two_pow_pos _))
  · intro hsize b hb levels
    obtain ⟨i, hi⟩ := List.getElem?_of_mem hb
    have hlt : i < 2 ^ machine.target.pointerBits :=
      Nat.lt_of_lt_of_le (getElem?_run hi).1 hsize
    rw [indexBy_run hi, literalIndex?_run hi, Nat.mod_eq_of_lt hlt]

/-- Bytes of one run that are not the whole of it are read at the decided positions. The whole of it
is never read, but decided as its parent. -/
theorem concretize_concat_run {places : List Nat} {loaded : List SymByte} {u : Ty}
    (hloaded : List.Forall₂
      (fun i b => (SymByte.run v ref ty id (machine.target.byteSize ty))[i]? = some b)
      places loaded)
    (hne : loaded ≠ []) (hu : u.Supported) (hlen : loaded.length = machine.target.byteSize u)
    (hintact : machine.intactParent? loaded u = none) :
    machine.concretize (.concat loaded u) =
      machine.concretizeWithin depthLimit v >>= fun d =>
        machine.readAt d ty (places.map (· % 2 ^ machine.target.pointerBits)) u := by
  rw [concretize_concat hu hintact]
  refine valueOfBytesBy_eq_readAt hne hlen ?_ ?_
  · intro a ha b hb
    obtain ⟨i, -, hi⟩ := exists_mem_of_forall₂ hloaded.flip ha
    obtain ⟨j, -, hj⟩ := exists_mem_of_forall₂ hloaded.flip hb
    obtain ⟨-, rfl⟩ := getElem?_run hi
    obtain ⟨-, rfl⟩ := getElem?_run hj
    exact SymByte.entangled_iff.2 ⟨rfl, .inl rfl⟩
  · refine List.forall₂_map_left_iff.2 (hloaded.imp ?_)
    intro i b hb
    have hindex := indexBy_run hb (depthLimit - 1)
    obtain ⟨-, rfl⟩ := getElem?_run hb
    exact ⟨rfl, rfl, hindex⟩

end Run

/-- What holds of the bytes of a value stored at a type, given least significant first. -/
structure ReadsPositions (machine : Machine) (v : SymValue) (ty : Ty) (stored : List SymByte) :
    Prop where
  /-- the position that is written out is the place of the byte -/
  written : ∀ (i : Nat) (b : SymByte), stored[i]? = some b → b.literalIndex? = some i
  /-- the position that is decided is the place of the byte, cut to the size of a pointer -/
  decided : ∀ (i : Nat) (b : SymByte), stored[i]? = some b → ∀ levels,
    indexBy (machine.concretizeWithin (levels + 1)) b.index =
      .ok (some (i % 2 ^ machine.target.pointerBits))
  /-- the two are the same for all bytes exactly if pointers can count the bytes -/
  agree : (∀ b ∈ stored, ∀ levels,
      indexBy (machine.concretizeWithin (levels + 1)) b.index = .ok b.literalIndex?) ↔
    machine.target.byteSize ty ≤ 2 ^ machine.target.pointerBits
  /-- pointers of eight bytes can count the bytes of any type -/
  wide : 8 ≤ machine.target.pointerSize →
    machine.target.byteSize ty ≤ 2 ^ machine.target.pointerBits
  /-- a load of bytes that are not the whole store reads the value at the decided positions -/
  loads : ∀ (places : List Nat) (loaded : List SymByte) (u : Ty),
    List.Forall₂ (fun i b => stored[i]? = some b) places loaded → loaded ≠ [] → u.Supported →
    loaded.length = machine.target.byteSize u → machine.intactParent? loaded u = none →
    machine.concretize (.concat loaded u) =
      machine.concretizeWithin depthLimit v >>= fun d =>
        machine.readAt d ty (places.map (· % 2 ^ machine.target.pointerBits)) u

/-- The bytes of a value that is not made of loaded bytes are read at their places, as far as
pointers can count them. A whole store is told by the written positions, so it is loaded as it was
however large it is; its parts are not. -/
theorem readsPositions {ids ids' : StoreIds} {out : List SymByte}
    (hplain : ∀ bytes u, v ≠ .concat bytes u) (h : machine.encode v ty ids = (.ok out, ids')) :
    machine.ReadsPositions v ty (machine.target.arrange out) := by
  obtain ⟨rfl, -⟩ := encode_eq_ok_of_plain hplain h
  rw [Target.arrange_arrange]
  exact
    { written := fun _ _ => literalIndex?_run
      decided := fun _ _ => indexBy_run
      agree := indexBy_run_eq_literalIndex?_iff
      wide := fun hwide => byteSize_le_of_wide hwide ty
      loads := fun _ _ _ => concretize_concat_run }

/-! ## A store that pointers cannot count -/

/-- A record that ends in a number, behind as many bytes as pointers of one byte can count. -/
def longRecord : SymValue :=
  .aggregate (.record .struct) [.undef (.array 32 (.int 64)), .scalar (.int ⟨.i8, 7⟩)]

/-- The type of `longRecord`. -/
def longRecordTy : Ty := .record .struct [.array 32 (.int 64), .int 8]

/-- One byte more than pointers can count, and the last of them is another one when it is read by
itself. -/
theorem readsPositions_longRecord :
    (∀ bytes u, longRecord ≠ .concat bytes u) ∧
      ∃ out ids', (standard bytePointers).encode longRecord longRecordTy .all = (.ok out, ids') ∧
        (standard bytePointers).ReadsPositions longRecord longRecordTy
          (bytePointers.arrange out) := by
  have hplain : ∀ bytes u, longRecord ≠ .concat bytes u := by
    rintro bytes u ⟨⟩
  obtain ⟨out, ids', h⟩ : ∃ out ids',
      (standard bytePointers).encode longRecord longRecordTy .all = (.ok out, ids') := ⟨_, _, rfl⟩
  exact ⟨hplain, out, ids', h, readsPositions hplain h⟩

/-- The number at the end of the record is written down at position 256, but decided to be at
position 0, so that a load of it reads the zero at the front. -/
theorem concretize_end_of_longRecord :
    ∃ out ids' b, (standard bytePointers).encode longRecord longRecordTy .all = (.ok out, ids') ∧
      (bytePointers.arrange out)[256]? = some b ∧ b.literalIndex? = some 256 ∧
      indexBy ((standard bytePointers).concretizeWithin depthLimit) b.index = .ok (some 0) ∧
      (standard bytePointers).concretize (.concat [b] (.int 8)) = .ok (.int ⟨.i8, 0⟩) ∧
      ((standard bytePointers).concretize longRecord >>= fun d =>
        (standard bytePointers).byteAt d longRecordTy 256) = .ok (some 7) := by
  have h : (standard bytePointers).encode longRecord longRecordTy .all =
      (.ok (bytePointers.arrange (SymByte.run longRecord (.stored 1) longRecordTy 1 257)),
        ⟨2, by decide, by decide⟩) := rfl
  refine ⟨_, _, ⟨longRecord, .stored 1, longRecordTy, .iptr 256, 1⟩, h, ?_, rfl, rfl, rfl, rfl⟩
  rw [Target.arrange_arrange, SymByte.run, List.getElem?_map, List.getElem?_range (by decide)]
  rfl

end SymbolicBytes.Machine
