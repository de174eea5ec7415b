import SymbolicBytes.Proofs.Congruence
import SymbolicBytes.Proofs.Unresolved
/-!
# Resolving bytes one by one

`Machine.resolveAlone` resolves one byte from its own parent, without regard to any class. Resolving
class by class from the parents of the seeds comes to the same (`valueOfBytesBy_eq`): the
bytes are visited class by class, the first of them that is a fault or poison decides, and if there
is none then the value is built from the bytes in their original places.
-/

namespace SymbolicBytes.Machine

variable {machine : Machine} {decide : SymValue → Outcome Value}

/-- The value of one byte taken by itself; `none` if its parent or its position is poison. -/
def resolveAlone (machine : Machine) (decide : SymValue → Outcome Value) (b : SymByte) :
    Outcome (Option UInt8) := do
  let parent ← decide b.parent
  if parent.isPoison then return none
  machine.resolveByte decide parent b

/-- One byte with its position, resolved by itself. -/
def resolveItemAlone (machine : Machine) (decide : SymValue → Outcome Value)
    (item : SymByte × Nat) : Outcome (Option (Nat × UInt8)) :=
  (Option.map fun value => (item.2, value)) <$> machine.resolveAlone decide item.1

/-- A byte that has a value by itself keeps its position. -/
theorem resolveItemAlone_eq_some {item : SymByte × Nat} {resolved : Nat × UInt8} :
    machine.resolveItemAlone decide item = .ok (some resolved) ↔
      resolved.1 = item.2 ∧ machine.resolveAlone decide item.1 = .ok (some resolved.2) := by
  obtain ⟨i, value⟩ := resolved
  rw [resolveItemAlone]
  rcases machine.resolveAlone decide item.1 with fault | _ | x <;> simp [eq_comm]

/-- A class whose bytes have parents that are decided alike is resolved byte by byte. The parent of
the seed is decided once for all of them. -/
theorem resolveClass_eq_gather {c : ItemClass SymByte}
    (h : ∀ item ∈ c.items, decide item.1.parent = decide c.seed.1.parent) :
    machine.resolveClass decide c = gather (machine.resolveItemAlone decide) c.items := by
  rw [resolveClass_eq]
  cases hparent : decide c.seed.1.parent with
  | error fault =>
    -- the seed stands first among the items and is the same fault
    simp only [ItemClass.items, gather_cons, resolveItemAlone, resolveAlone, hparent,
      Outcome.error_bind, Outcome.map_error]
  | ok parent =>
    rw [Outcome.ok_bind]
    split
    · -- likewise if it is poison
      rename_i hpoison
      simp only [ItemClass.items, gather_cons, resolveItemAlone, resolveAlone, hparent,
        Outcome.ok_bind, hpoison, if_true, Outcome.pure_eq_ok, Outcome.map_ok, Option.map_none]
    · rename_i hpoison
      refine gather_congr (List.forall₂_same.2 ?_)
      intro item hitem
      simp only [resolveItemAlone, resolveAlone, h item hitem, hparent, Outcome.ok_bind, hpoison]
      rfl

/-! ## All classes -/

/-- The value of bytes, when the parents of entangled bytes are decided alike: the classes then play
no part but for the order in which the bytes are visited, which tells apart faults and poison. -/
theorem valueOfBytesBy_eq {bytes : List SymByte} {ty : Ty}
    (hlen : bytes.length = machine.target.byteSize ty)
    (h : ∀ a ∈ bytes, ∀ b ∈ bytes, a.entangled b = true → decide a.parent = decide b.parent) :
    machine.valueOfBytesBy decide bytes ty =
      gather (machine.resolveItemAlone decide) (visited bytes) >>= fun
        | none => .ok (.poison ty)
        | some resolved => assemble bytes.length resolved >>= machine.ofBytes ty := by
  have hclasses : List.Forall₂
      (fun c d => machine.resolveClass decide c = gather (machine.resolveItemAlone decide) d.items)
      (itemClasses SymByte.entangled bytes) (itemClasses SymByte.entangled bytes) :=
    List.forall₂_same.2 fun c hc => resolveClass_eq_gather fun item hitem => by
      have hseed := mem_of_mem_items hc (List.mem_cons_self ..)
      rcases List.mem_cons.1 hitem with rfl | hother
      · rfl
      · exact (h _ hseed _ (mem_of_mem_items hc hitem) (same_of_mem_others hc hother)).symm
  rw [valueOfBytesBy, visited, ← gather_gather, gather_congr hclasses]
  simp only [hlen, ne_eq, not_true_eq_false, if_false]
  rcases gather (fun c => gather (machine.resolveItemAlone decide) (ItemClass.items c))
    (itemClasses SymByte.entangled bytes) with fault | _ | resolved <;> rfl

/-- Another number of bytes than the type has is a fault, before any byte is resolved. -/
theorem valueOfBytesBy_of_length_ne {bytes : List SymByte} {ty : Ty}
    (h : bytes.length ≠ machine.target.byteSize ty) :
    machine.valueOfBytesBy decide bytes ty =
      .error (.byteCount bytes.length ty (machine.target.byteSize ty)) := by
  rw [valueOfBytesBy]
  simp only [h, ne_eq, not_false_eq_true, if_true]
  rfl

/-- What bytes come to when every byte is resolved by itself, by `resolve`. -/
structure BuiltByteByByte (machine : Machine) (resolve : SymByte → Outcome (Option UInt8))
    (bytes : List SymByte) (ty : Ty) (result : Outcome Value) : Prop where
  /-- bytes that are not as many as the type has are malformed -/
  count : bytes.length ≠ machine.target.byteSize ty →
    ∃ fault, result = .error fault ∧ fault.kind = .structural
  /-- the classes visit every byte once -/
  visits : (classes SymByte.entangled bytes).flatten.Perm (List.range bytes.length)
  /-- a byte that is a fault or poison decides, if those visited before it have values -/
  stop : bytes.length = machine.target.byteSize ty → ∀ before i after b,
    (classes SymByte.entangled bytes).flatten = before ++ i :: after → bytes[i]? = some b →
    (∀ j ∈ before, ∀ c, bytes[j]? = some c → ∃ x, resolve c = .ok (some x)) →
    (∀ fault, resolve b = .error fault → result = .error fault) ∧
      (resolve b = .ok none → result = .ok (.poison ty))
  /-- bytes that all have values are the value that those spell in their places -/
  build : bytes.length = machine.target.byteSize ty →
    (∀ b ∈ bytes, ∃ x, resolve b = .ok (some x)) →
    ∃ values, List.Forall₂ (fun b x => resolve b = .ok (some x)) bytes values ∧
      result = machine.ofBytes ty values
  /-- no byte is left without a value -/
  resolved : machine.ParametersResolved → ∀ i, result ≠ .error (.unresolvedByte i)

section Shared

variable {heap : ParentRef → SymValue} {bytes : List SymByte} {ty : Ty} {levels : Nat}

/-- Entangled bytes of one heap have one parent or equal ones, and these are decided alike. -/
theorem valueOfBytesBy_eq_of_shared (hshared : ∀ b ∈ bytes, b.SharedIn heap)
    (hlen : bytes.length = machine.target.byteSize ty) :
    machine.valueOfBytesBy (machine.concretizeWithin levels) bytes ty =
      gather (machine.resolveItemAlone (machine.concretizeWithin levels)) (visited bytes) >>= fun
        | none => .ok (.poison ty)
        | some resolved => assemble bytes.length resolved >>= machine.ofBytes ty :=
  valueOfBytesBy_eq hlen fun a ha b hb hab =>
    decide_parent_of_entangled (hshared a ha) (hshared b hb) hab levels

/-- Where every byte has a value by itself, those are put in their places. The order of the classes
is gone from the result. -/
theorem exists_assemble_of_resolveAlone
    (h : ∀ b ∈ bytes, ∃ x, machine.resolveAlone decide b = .ok (some x)) :
    ∃ resolved values,
      gather (machine.resolveItemAlone decide) (visited bytes) = .ok (some resolved) ∧
      assemble bytes.length resolved = .ok values ∧
      List.Forall₂ (fun b x => machine.resolveAlone decide b = .ok (some x)) bytes values := by
  have hitems := itemClasses_perm SymByte.entangled bytes
  obtain ⟨resolved, values, hresolved, hvalues, hplaces⟩ :=
    exists_assemble_of_gather hitems fun item hitem => by
      obtain ⟨x, hx⟩ := h item.1 (List.mem_of_getElem? (mem_visited.1 hitem))
      exact ⟨x, resolveItemAlone_eq_some.2 ⟨rfl, hx⟩⟩
  refine ⟨resolved, values, hresolved, hvalues, ?_⟩
  have hbytes : List.Forall₂ (fun b x => machine.resolveAlone decide b = .ok (some x))
      (bytes.zipIdx.map Prod.fst) values :=
    List.forall₂_map_left_iff.2 (hplaces.imp fun _ _ hx => (resolveItemAlone_eq_some.1 hx).2)
  rwa [List.zipIdx_map_fst] at hbytes

/-- Resolving bytes class by class is resolving every byte by itself, at every type and depth.
Sharing the parents of a class is therefore a matter of cost and not of result. All that the classes
decide is which byte is met first, where there are several faults or there is poison beside them. -/
theorem valueOfBytes_builtByteByByte (machine : Machine) (hshared : ∀ b ∈ bytes, b.SharedIn heap)
    (ty : Ty) (depth : Nat) :
    machine.BuiltByteByByte
      (machine.resolveAlone (machine.concretizeWithin (levelsBelow depth))) bytes ty
      (machine.valueOfBytes bytes ty depth) where
  count hlen := ⟨_, valueOfBytesBy_of_length_ne hlen, rfl⟩
  visits := classes_perm SymByte.entangled bytes
  stop hlen before i after b hsplit hb hbefore := by
    obtain ⟨items, rest, hvisited, hitems⟩ := exists_visited_split hsplit hb
    have hskip : ∀ item ∈ items, ∃ r,
        machine.resolveItemAlone (machine.concretizeWithin (levelsBelow depth)) item =
          .ok (some r) := by
      rintro ⟨c, j⟩ hitem
      have hc : bytes[j]? = some c := by
        apply mem_visited.1
        rw [hvisited]
        exact List.mem_append_left _ hitem
      obtain ⟨x, hx⟩ := hbefore j (hitems ▸ List.mem_map_of_mem hitem) c hc
      exact ⟨(j, x), resolveItemAlone_eq_some.2 ⟨rfl, hx⟩⟩
    -- what was visited before is resolved, so the outcome is that of this byte
    constructor
    · intro fault hfault
      have hitem : machine.resolveItemAlone (machine.concretizeWithin (levelsBelow depth)) (b, i) =
          .error fault := by rw [resolveItemAlone, hfault, Outcome.map_error]
      rw [valueOfBytes, valueOfBytesBy_eq_of_shared hshared hlen, hvisited,
        gather_eq_error hskip hitem]
      rfl
    · intro hpoison
      have hitem : machine.resolveItemAlone (machine.concretizeWithin (levelsBelow depth)) (b, i) =
          .ok none := by rw [resolveItemAlone, hpoison, Outcome.map_ok, Option.map_none]
      rw [valueOfBytes, valueOfBytesBy_eq_of_shared hshared hlen, hvisited,
        gather_eq_none hskip hitem]
      rfl
  build hlen hall := by
    obtain ⟨resolved, values, hgather, hassemble, hvalues⟩ := exists_assemble_of_resolveAlone hall
    refine ⟨values, hvalues, ?_⟩
    rw [valueOfBytes, valueOfBytesBy_eq_of_shared hshared hlen, hgather]
    simp only [Outcome.ok_bind, hassemble]
  resolved hparameters :=
    (hparameters.valueOfBytesBy (allResolved_concretizeWithin hparameters _) bytes ty).ne

end Shared

/-! ## Two stores that were mixed -/

/-- The parents of two stores: a number, and one that still waits to be decided. -/
def mixedHeap : ParentRef → SymValue
  | .stored 1 => .scalar (.int ⟨.i32, 0x04030201⟩)
  | .stored 2 => .binary (.int (.add false false)) (.undef (.int 32))
      (.scalar (.int ⟨.i32, 0x08070605⟩))
  | _ => .void

/-- Four bytes taken in turn from two stores. -/
def mixedBytes : List SymByte :=
  (List.range 4).map fun (i : Nat) =>
    let id := 1 + i % 2
    ⟨mixedHeap (.stored id), .stored id, .int 32, .iptr i, id⟩

/-- The bytes of the two stores make a number, and at no type and no depth is one of them left over.
-/
theorem mixedBytes_builtByteByByte :
    (∀ b ∈ mixedBytes, b.SharedIn mixedHeap) ∧
      (standard .standard).ParametersResolved ∧
      (standard .standard).BuiltByteByByte
        ((standard .standard).resolveAlone ((standard .standard).concretizeWithin (levelsBelow 0)))
        mixedBytes (.int 32) ((standard .standard).valueOfBytes mixedBytes (.int 32) 0) ∧
      (∀ (ty : Ty) (depth i : Nat),
        (standard .standard).valueOfBytes mixedBytes ty depth ≠ .error (.unresolvedByte i)) ∧
      (standard .standard).valueOfBytes mixedBytes (.int 32) 0 =
        .ok (.int ⟨.i32, 0x08030601⟩) := by
  have hshared : ∀ b ∈ mixedBytes, b.SharedIn mixedHeap := by
    intro b hb
    obtain ⟨i, -, rfl⟩ := List.mem_map.1 hb
    have hid : i % 2 = 0 ∨ i % 2 = 1 := Nat.mod_two_eq_zero_or_one i
    rcases hid with hid | hid <;>
      simp [SymByte.sharedIn_iff, hid, mixedHeap, SymValue.SharedIn, SymValue.SharedByte]
  have hparameters : (standard .standard).ParametersResolved := parametersResolved_standard _
  have hbuilt (ty : Ty) (depth : Nat) :=
    valueOfBytes_builtByteByByte (standard .standard) hshared ty depth
  exact ⟨hshared, hparameters, hbuilt _ 0, fun ty depth => (hbuilt ty depth).resolved hparameters,
    by rfl⟩

end SymbolicBytes.Machine
