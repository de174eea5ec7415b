import SymbolicBytes.Memory.Session
import SymbolicBytes.Proofs.Reloading
/-!
# The other byte order

What is stored, loaded and copied on a little-endian machine goes the same way on the big-endian
machine that is like it otherwise, in a memory that is turned round: the bytes lie in reverse, at
the places counted from the other end, and ids, values and faults are the same
(`Session.perform_mirror`).

Only `encode` and `decode` know the byte order. The one turns what it made (`encode_mirror`), and
the other turns what it is given (`decode_mirror`).
-/

namespace SymbolicBytes

/-! ## Lists that are turned round -/

section Lists

variable {α : Type} {items new : List α} {start count : Nat}

/-- A piece of a list is, in reverse, the piece of the reverse that is as far from the other end. -/
theorem slice_reverse (h : start + count ≤ items.length) :
    (items.reverse.drop (items.length - start - count)).take count =
      ((items.drop start).take count).reverse := by
  have hend : items.length - (items.length - start - count) = start + count := by omega
  have hstart : min (start + count) items.length - count = start := by omega
  rw [List.drop_reverse, List.take_reverse, hend, List.length_take, hstart, List.drop_take,
    Nat.add_sub_cancel_left]

theorem length_slice (h : start + count ≤ items.length) :
    ((items.drop start).take count).length = count := by
  simp only [List.length_take, List.length_drop]
  omega

/-- Writing at a place turned round is writing in reverse at the place that is as far from the other
end. What is written must not stick out, or the two lists would grow at different ends. -/
theorem overwrite_reverse (h : start + new.length ≤ items.length) :
    overwrite items.reverse (items.length - start - new.length) new.reverse =
      (overwrite items start new).reverse := by
  have hend : items.length - (items.length - start - new.length) = start + new.length := by omega
  have hstart : items.length - (items.length - start - new.length + new.length) = start := by omega
  simp only [overwrite, List.reverse_append, List.append_assoc, List.take_reverse,
    List.drop_reverse, List.length_reverse, hend, hstart]

theorem length_overwrite (h : start + new.length ≤ items.length) :
    (overwrite items start new).length = items.length := by
  simp only [overwrite, List.length_append, List.length_take, List.length_drop]
  omega

end Lists

/-! ## Machines of the other byte order -/

namespace Target

/-- The target with another byte order. -/
def withEndian (target : Target) (endian : Endian) : Target := { target with endian := endian }

variable (target : Target) (endian : Endian)

mutual

/-- Sizes do not depend on the byte order. -/
@[simp] theorem byteSize_withEndian :
    ∀ t : Ty, (target.withEndian endian).byteSize t = target.byteSize t
  | .int _ | .pointer | .iptr | .float _ | .void | .special _ => by
    simp only [byteSize, withEndian]
  | .sequence _ _ element => by simp only [byteSize, byteSize_withEndian element]
  | .record _ fields => by simp only [byteSize, byteSizes_withEndian fields]

theorem byteSizes_withEndian :
    ∀ ts : List Ty, (target.withEndian endian).byteSizes ts = target.byteSizes ts
  | [] => by simp only [byteSizes]
  | t :: ts => by simp only [byteSizes, byteSize_withEndian t, byteSizes_withEndian ts]

end

variable {α : Type} (bytes : List α)

@[simp] theorem arrange_little : (target.withEndian .little).arrange bytes = bytes := rfl

@[simp] theorem arrange_big : (target.withEndian .big).arrange bytes = bytes.reverse := rfl

end Target

namespace Machine

/-- The machine with another byte order. -/
def withEndian (machine : Machine) (endian : Endian) : Machine :=
  { machine with target := machine.target.withEndian endian }

variable (machine : Machine) (endian : Endian)

@[simp] theorem target_withEndian :
    (machine.withEndian endian).target = machine.target.withEndian endian := rfl

/-- Whole stores are told after the bytes were brought in order, so there is no byte order to it. -/
@[simp] theorem intactParent?_withEndian (bytes : List SymByte) (ty : Ty) :
    (machine.withEndian endian).intactParent? bytes ty = machine.intactParent? bytes ty := by
  simp only [intactParent?, target_withEndian, Target.byteSize_withEndian]

/-- A store on the one machine makes the bytes of a store on the other, turned round, under the same
ids, or fails alike. The byte order is the last thing that a store regards. -/
theorem encode_mirror (v : SymValue) (ty : Ty) (ids : StoreIds) :
    (machine.withEndian .big).encode v ty ids =
      (List.reverse <$> ((machine.withEndian .little).encode v ty ids).1,
        ((machine.withEndian .little).encode v ty ids).2) := by
  simp only [encode, target_withEndian, Target.byteSize_withEndian, Target.arrange_little,
    Target.arrange_big]
  split
  · rfl
  · split
    · split <;> rfl
    · split
      · rfl
      · rename_i loaded _ _
        rcases retag loaded ids with ⟨_ | _, _⟩ <;> rfl
    · rfl
    · split
      · rfl
      · split <;> rfl

/-- A load of bytes that are turned round gives the same value on the other machine, or fails alike.
It brings them in order first, so what is loaded does not know of the byte order. -/
theorem decode_mirror (bytes : List SymByte) (ty : Ty) :
    (machine.withEndian .big).decode bytes.reverse ty =
      (machine.withEndian .little).decode bytes ty := by
  simp only [decode, target_withEndian, Target.arrange_little, Target.arrange_big,
    List.reverse_reverse, List.reverse_eq_nil_iff, List.length_reverse, intactParent?_withEndian]

end Machine

/-! ## Work on a memory -/

/-- Work on a memory that leaves it as large as it is. -/
inductive Access where
  /-- stores a value at a type, given or made of the values that were named before -/
  | store (start : Nat) (pick : List (String × SymValue) → SymValue) (ty : Ty)
  /-- loads a value of a type, and gives it a name -/
  | load (start count : Nat) (ty : Ty) (name : Option String)
  /-- copies bytes as they are -/
  | copy (start count dest : Nat)

namespace Access

/-- The step of a session that the access is. -/
def toStep (s : Session) : Access → Step
  | .store start pick ty => .store start (pick s.names) ty
  | .load start count ty name => .load start count ty name
  | .copy start count dest => .copy start count dest

/-- Whether the access stays within `size` bytes. -/
def Within (target : Target) (size : Nat) : Access → Prop
  | .store start _ ty => start + target.byteSize ty ≤ size
  | .load start count _ _ => start + count ≤ size
  | .copy start count dest => start + count ≤ size ∧ dest + count ≤ size

instance (target : Target) (size : Nat) : DecidablePred (Within target size)
  | .store start _ ty => inferInstanceAs (Decidable (start + target.byteSize ty ≤ size))
  | .load start count _ _ => inferInstanceAs (Decidable (start + count ≤ size))
  | .copy start count dest =>
    inferInstanceAs (Decidable (start + count ≤ size ∧ dest + count ≤ size))

/-- The access at the places counted from the end of `size` bytes. -/
def mirror (target : Target) (size : Nat) : Access → Access
  | .store start pick ty => .store (size - start - target.byteSize ty) pick ty
  | .load start count ty name => .load (size - start - count) count ty name
  | .copy start count dest => .copy (size - start - count) count (size - dest - count)

@[simp] theorem within_withEndian {target : Target} {endian : Endian} {size : Nat}
    {access : Access} :
    access.Within (target.withEndian endian) size ↔ access.Within target size := by
  cases access <;> simp only [Within, Target.byteSize_withEndian]

end Access

/-- The answer in a memory that is turned round. -/
def Reply.mirror : Reply → Reply
  | bytes content => bytes content.reverse
  | reply => reply

namespace Session

/-- The session with its memory turned round. -/
def mirror (s : Session) : Session :=
  { s with memory := { s.memory with bytes := s.memory.bytes.reverse } }

/-- The session after a list of accesses, with their answers. -/
def perform (machine : Machine) : Session → List Access → List (Outcome Reply) × Session
  | s, [] => ([], s)
  | s, access :: rest =>
    let (reply, s) := s.step machine (access.toStep s)
    let (replies, s) := perform machine s rest
    (reply :: replies, s)

variable {machine : Machine} {s : Session} {size : Nat}

/-- One access goes the same way in the memory that is turned round: the answers are the same but
for bytes that are shown in reverse, and the memories stay turned round. -/
theorem step_mirror (machine : Machine) (s : Session) {access : Access}
    (hwithin : access.Within machine.target s.memory.bytes.length) :
    s.mirror.step (machine.withEndian .big)
        ((access.mirror machine.target s.memory.bytes.length).toStep s.mirror) =
      (Reply.mirror <$> (s.step (machine.withEndian .little) (access.toStep s)).1,
        (s.step (machine.withEndian .little) (access.toStep s)).2.mirror) := by
  cases access with
  | store start pick ty =>
    simp only [Access.mirror, Access.toStep, step, mirror, Memory.store, Machine.encode_mirror]
    rcases hencode : (machine.withEndian .little).encode (pick s.names) ty s.memory.ids with
      ⟨fault | out, ids'⟩
    · rfl
    · -- the places are counted from the size of the type, which is the number of bytes made
      have hlen := Machine.length_encode hencode
      rw [Machine.target_withEndian, Target.byteSize_withEndian] at hlen
      simp only [Access.Within, ← hlen] at hwithin
      rw [← hlen]
      simp only [Outcome.map_ok, Memory.commit, overwrite_reverse hwithin]
      rfl
  | load start count ty name =>
    have hload : s.mirror.memory.load (machine.withEndian .big)
        (s.memory.bytes.length - start - count) count ty =
        s.memory.load (machine.withEndian .little) start count ty := by
      simp only [Memory.load, Memory.slice, mirror, slice_reverse hwithin, Machine.decode_mirror]
    simp only [Access.mirror, Access.toStep, step, hload]
    split <;> rfl
  | copy start count dest =>
    obtain ⟨hsource, hdest⟩ := hwithin
    have hslice := length_slice hsource
    have hcopy : s.mirror.memory.copy (s.memory.bytes.length - start - count) count
        (s.memory.bytes.length - dest - count) =
        { s.memory with bytes := (s.memory.copy start count dest).bytes.reverse } := by
      simp only [Memory.copy, Memory.slice, mirror, slice_reverse hsource]
      rw [← overwrite_reverse (by rwa [hslice]), hslice]
    simp only [Access.mirror, Access.toStep, step, hcopy]
    rfl

/-- An access that stays within a memory leaves it as large as it is, so that places can be counted
from the same end throughout. -/
theorem length_step (machine : Machine) (s : Session) {access : Access}
    (hwithin : access.Within machine.target s.memory.bytes.length) :
    (s.step machine (access.toStep s)).2.memory.bytes.length = s.memory.bytes.length := by
  cases access with
  | store start pick ty =>
    simp only [Access.toStep, step, Memory.store]
    rcases hencode : machine.encode (pick s.names) ty s.memory.ids with ⟨fault | out, ids'⟩
    · rfl
    · simp only [Access.Within, ← Machine.length_encode hencode] at hwithin
      exact length_overwrite hwithin
  | load start count ty name =>
    simp only [Access.toStep, step]
    split <;> rfl
  | copy start count dest =>
    obtain ⟨hsource, hdest⟩ := hwithin
    exact length_overwrite (by rwa [Memory.slice, length_slice hsource])

/-- Any work on a memory goes the same way, with the byte order and the places turned round, in the
memory that is turned round. So no work can tell on which of the two machines it is done, but by
where it finds the bytes of a value. -/
theorem perform_mirror (machine : Machine) (s : Session) (accesses : List Access)
    (hwithin : ∀ access ∈ accesses, access.Within machine.target s.memory.bytes.length) :
    s.mirror.perform (machine.withEndian .big)
        (accesses.map (Access.mirror machine.target s.memory.bytes.length)) =
      ((s.perform (machine.withEndian .little) accesses).1.map (Reply.mirror <$> ·),
        (s.perform (machine.withEndian .little) accesses).2.mirror) := by
  induction accesses generalizing s with
  | nil => rfl
  | cons access rest ih =>
    rw [List.forall_mem_cons] at hwithin
    have hstep := step_mirror machine s hwithin.1
    have hlen := length_step (machine.withEndian .little) s (Access.within_withEndian.2 hwithin.1)
    have hrest := ih (s.step (machine.withEndian .little) (access.toStep s)).2
      (by rw [hlen]; exact hwithin.2)
    rw [hlen] at hrest
    simp only [List.map_cons, perform, hstep, hrest]

/-! ## Overlapping stores -/

/-- Eight undefined bytes. -/
def blank : Session :=
  ⟨⟨SymByte.run (.undef (.int 64)) (.given 0) (.int 64) 1 8, .above 1⟩, []⟩

/-- The value that was named last, or nothing. -/
def lastNamed (names : List (String × SymValue)) : SymValue := (names.map (·.2)).headD .void

/-- Two numbers overlap, what is left of the first is loaded and stored over the second, and a part
of all that is copied over another. In the end the loaded bytes are stored at a type that they do
not fit. -/
def overlaps : List Access :=
  [.store 0 (fun _ => .scalar (.int ⟨.i32, 0x11223344⟩)) (.int 32),
    .store 2 (fun _ => .scalar (.int ⟨.i32, 0x55667788⟩)) (.int 32),
    .load 0 4 (.int 32) (some "x"), .store 3 lastNamed (.vector 4 (.int 8)), .copy 1 5 2,
    .store 0 lastNamed (.int 64), .load 0 8 (.int 64) none]

/-- Stores that overlap, of a value that was loaded in between as well, are cut up at the same bytes
in both memories. -/
theorem perform_mirror_overlaps :
    let machine := Machine.standard .standard
    let turned := overlaps.map (Access.mirror machine.target blank.memory.bytes.length)
    (∀ access ∈ overlaps, access.Within machine.target blank.memory.bytes.length) ∧
      blank.mirror.perform (machine.withEndian .big) turned =
        ((blank.perform (machine.withEndian .little) overlaps).1.map (Reply.mirror <$> ·),
          (blank.perform (machine.withEndian .little) overlaps).2.mirror) ∧
      (blank.mirror.perform (machine.withEndian .big) turned).2.memory.bytes.map SymByte.storeId =
        [1, 5, 4, 4, 3, 2, 2, 2] := by
  intro machine turned
  have hwithin : ∀ access ∈ overlaps,
      access.Within machine.target blank.memory.bytes.length := by decide
  have hmirror := perform_mirror machine blank overlaps hwithin
  refine ⟨hwithin, hmirror, ?_⟩
  rw [hmirror]
  decide

end Session

end SymbolicBytes
