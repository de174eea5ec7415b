import SymbolicBytes.Proofs.ByteClasses
import SymbolicBytes.Proofs.RoundTrip
/-!
# Whole stores, byte by byte

Bytes that are one whole store are decided by deciding their parent. Deciding them byte by byte
instead comes to the same, as far as bytes can tell (`valueOfBytes_of_intactParent`): poison that
takes up bytes makes the whole poison; addresses come back with the provenance of integers; and
poison of a type without bytes, of which no byte is left to tell, comes back as a zero value.
-/

namespace SymbolicBytes.Machine

variable {machine : Machine} {decide : SymValue → Outcome Value}

/-! ## Positions that are written out -/

/-- A position that is written as a pointer-sized integer is cut to the size of a pointer, as every
integer of that type is when it is decided. -/
theorem indexBy_iptr {i : Nat} (hi : i < UInt64.size) (levels : Nat) :
    indexBy (machine.concretizeWithin (levels + 1)) (.iptr i) =
      .ok (some (i % 2 ^ machine.target.pointerBits)) := by
  have hwrap : wrapUnsigned machine.target.pointerBits i =
      (i % 2 ^ machine.target.pointerBits : Nat) := by
    rw [wrapUnsigned_eq_emod]
    norm_cast
  have hcut : i % 2 ^ machine.target.pointerBits < 2 ^ 64 :=
    Nat.lt_of_le_of_lt (Nat.mod_le ..) hi
  simp only [indexBy, concretizeWithin, concretizeBy, hwrap, Outcome.ok_bind,
    BitVec.ofInt_natCast, BitVec.toNat_ofNat, Nat.mod_eq_of_lt hcut, Outcome.pure_eq_ok]

/-- A position that is written out, and fits into a pointer, is decided as what it says, however it
is written. -/
theorem indexBy_of_literalIndex? {b : SymByte} {i levels : Nat} (h : b.literalIndex? = some i)
    (hi : i < 2 ^ machine.target.pointerBits) :
    indexBy (machine.concretizeWithin (levels + 1)) b.index = .ok (some i) := by
  rw [SymByte.literalIndex?] at h
  split at h
  · -- a pointer-sized integer, which the walk cuts to the size of a pointer
    rename_i int hindex
    split at h
    · rename_i hrange
      obtain ⟨n, rfl⟩ := Int.eq_ofNat_of_zero_le hrange.1
      obtain rfl : n = i := Option.some.inj h
      rw [hindex, indexBy_iptr (by exact_mod_cast hrange.2), Nat.mod_eq_of_lt hi]
    · cases h
  · -- an integer with a fixed width, which it leaves as it is
    rename_i n hindex
    obtain rfl := Option.some.inj h
    simp only [indexBy, hindex, concretizeWithin, concretizeBy, Outcome.ok_bind, Outcome.pure_eq_ok]
  · cases h

/-- A byte at a position that is written out reads the image of the value of its parent, be it a
number or poison there. Beyond what pointers can count it would read another position. -/
theorem resolveByte_eq_image {d : Value} {b : SymByte} (hd : d.HasTy b.ty) {i levels : Nat}
    (hindex : b.literalIndex? = some i) (hi : i < machine.target.byteSize b.ty)
    (hsize : machine.target.byteSize b.ty ≤ 2 ^ machine.target.pointerBits) :
    ∃ x, (machine.image d)[i]? = some x ∧
      machine.resolveByte (machine.concretizeWithin (levels + 1)) d b = .ok x := by
  obtain ⟨x, himage, hbyte⟩ := byteAt_eq_image hd i hi
  refine ⟨x, himage, ?_⟩
  rw [resolveByte, indexBy_of_literalIndex? hindex (Nat.lt_of_lt_of_le hi hsize)]
  exact hbyte

/-! ## Whole stores -/

/-- The value of bytes that are one class, from the value of their parent. Poison as a whole makes
poison before any position is looked at. -/
theorem valueOfBytesBy_singleton (decide : SymValue → Outcome Value) {first : SymByte}
    {rest : List SymByte} {ty : Ty}
    (hlen : (first :: rest).length = machine.target.byteSize ty)
    (hclass : ∀ b ∈ rest, first.entangled b = true) :
    machine.valueOfBytesBy decide (first :: rest) ty =
      decide first.parent >>= fun d =>
        (if d.isPoison then .ok none
          else gather (machine.resolveItem decide d) (first :: rest).zipIdx) >>= fun
          | none => .ok (.poison ty)
          | some resolved => assemble (first :: rest).length resolved >>= machine.ofBytes ty := by
  rw [valueOfBytesBy, itemClasses_eq_singleton hclass, gather_singleton, resolveClass_eq]
  simp only [hlen, ne_eq, not_true_eq_false, if_false, ItemClass.items, List.zipIdx_cons,
    Nat.zero_add]
  cases decide first.parent with
  | error fault => rfl
  | ok d =>
    simp only [Outcome.ok_bind]
    split
    · rfl
    · rcases gather (machine.resolveItem decide d) ((first, 0) :: rest.zipIdx 1)
        with fault | _ | resolved
      · rfl
      · rfl
      · simp

/-- Items that read an image without poison are put together to that image. -/
theorem exists_assemble_eq_image {d : Value} (hno : machine.target.NoPoisonBytes d)
    {bytes : List SymByte} (hlen : bytes.length = (machine.image d).length)
    (hread : ∀ item ∈ bytes.zipIdx, ∃ x, (machine.image d)[item.2]? = some x ∧
      machine.resolveByte decide d item.1 = .ok x) :
    ∃ resolved values, gather (machine.resolveItem decide d) bytes.zipIdx = .ok (some resolved) ∧
      assemble bytes.length resolved = .ok values ∧ machine.image d = values.map some := by
  have hsome : ∀ item ∈ bytes.zipIdx, ∃ x, (machine.image d)[item.2]? = some (some x) ∧
      machine.resolveByte decide d item.1 = .ok (some x) := by
    intro item hitem
    obtain ⟨x, himage, hx⟩ := hread item hitem
    cases x with
    | none => exact absurd hno (none_mem_image_iff.1 (List.mem_of_getElem? himage))
    | some x => exact ⟨x, himage, hx⟩
  obtain ⟨resolved, values, hresolved, hvalues, hplaces⟩ :=
    exists_assemble_of_gather (.refl bytes.zipIdx) fun item hitem => by
      obtain ⟨x, -, hx⟩ := hsome item hitem
      exact ⟨x, resolveItem_eq_some.2 ⟨rfl, hx⟩⟩
  refine ⟨resolved, values, hresolved, hvalues, ?_⟩
  have hpositions : List.Forall₂ (fun i x => (machine.image d)[i]? = some (some x))
      (bytes.zipIdx.map Prod.snd) values := by
    refine List.forall₂_map_left_iff.2 (forall₂_of_mem hplaces ?_)
    intro item hitem x _ hx
    obtain ⟨y, himage, hy⟩ := hsome item hitem
    rwa [Except.ok.inj ((resolveItem_eq_some.1 hx).2.symm.trans hy)]
  -- the positions are all there are, in order
  rw [List.zipIdx_map_snd, ← List.range_eq_range', hlen] at hpositions
  have himage : List.Forall₂ (fun a x => id a = some x) (machine.image d) values :=
    forall₂_of_range (hpositions.imp fun i x hx a ha => Option.some.inj (ha.symm.trans hx))
  rw [← map_eq_of_forall₂ himage, List.map_id]

/-- Items that read an image with poison stop at it. -/
theorem gather_resolveItem_eq_none {d : Value} (hpoison : ¬ machine.target.NoPoisonBytes d)
    {bytes : List SymByte} (hlen : bytes.length = (machine.image d).length)
    (hread : ∀ item ∈ bytes.zipIdx, ∃ x, (machine.image d)[item.2]? = some x ∧
      machine.resolveByte decide d item.1 = .ok x) :
    gather (machine.resolveItem decide d) bytes.zipIdx = .ok none := by
  obtain ⟨i, hi⟩ := List.getElem?_of_mem (none_mem_image_iff.2 hpoison)
  have hi' : i < bytes.length := hlen ▸ (List.getElem?_eq_some_iff.1 hi).1
  have hmem : (bytes[i], i) ∈ bytes.zipIdx :=
    List.mk_mem_zipIdx_iff_getElem?.2 (List.getElem?_eq_getElem hi')
  have hnone : machine.resolveByte decide d bytes[i] = .ok none := by
    obtain ⟨x, hx, hbyte⟩ := hread _ hmem
    obtain rfl : x = none := Option.some.inj (hx.symm.trans hi)
    exact hbyte
  refine gather_eq_none_of_mem ?_ hmem ?_
  · intro item hitem
    obtain ⟨x, -, hx⟩ := hread item hitem
    refine ⟨x.map fun value => (item.2, value), ?_⟩
    rw [resolveItem, hx, Outcome.map_ok]
  · rw [resolveItem, hnone, Outcome.map_ok, Option.map_none]

/-- Every byte of a whole store reads the image of the value of the parent, at the position where it
stands. -/
theorem exists_resolveByte_of_whole {bytes : List SymByte} {ty : Ty}
    (hlen : bytes.length = machine.target.byteSize ty)
    (hall : ∀ (b : SymByte) i, bytes[i]? = some b → b.ty = ty ∧ b.literalIndex? = some i)
    (hsize : machine.target.byteSize ty ≤ 2 ^ machine.target.pointerBits) {d : Value}
    (hd : d.HasTy ty) (levels : Nat) :
    ∀ item ∈ bytes.zipIdx, ∃ x, (machine.image d)[item.2]? = some x ∧
      machine.resolveByte (machine.concretizeWithin (levels + 1)) d item.1 = .ok x := by
  rintro ⟨b, i⟩ hitem
  have hb := List.mk_mem_zipIdx_iff_getElem?.1 hitem
  obtain ⟨rfl, hliteral⟩ := hall b i hb
  exact resolveByte_eq_image hd hliteral (hlen ▸ (List.getElem?_eq_some_iff.1 hb).1) hsize

/-- Deciding a whole store byte by byte is deciding its parent, as far as bytes can tell. So a load
may take the short way for a whole store, which it does, and the rest of this library may argue
about either. No list has as many bytes as the largest size, at which sizes are no longer exact. -/
theorem valueOfBytes_of_intactParent (hflat : machine.addresses = .flat)
    (hp : machine.target.pointerSize ≤ 8) {bytes : List SymByte} {ty : Ty} (hty : ty.Supported)
    (hbytes : bytes.length < maxSize) {parent : SymValue}
    (hintact : machine.intactParent? bytes ty = some parent) {depth : Nat} {d : Value}
    (hd : machine.concretizeWithin (levelsBelow depth) parent = .ok d) (hdty : d.HasTy ty)
    (hfits : d.ScalarsIn machine.target.Fits)
    (hsize : machine.target.byteSize ty ≤ 2 ^ machine.target.pointerBits) :
    (¬ machine.target.NoPoisonBytes d →
      machine.valueOfBytes bytes ty depth = .ok (.poison ty)) ∧
    (machine.target.NoPoisonBytes d →
      machine.valueOfBytes bytes ty depth =
        .ok (d.fillEmptyPoison machine.target).withWildcards) := by
  obtain ⟨first, rest, hcons, rfl, hlen, hall⟩ := of_intactParent?_eq_some hintact
  have hexact : machine.target.exactSize ty ≤ maxSize :=
    machine.target.exactSize_le_of_byteSize_lt (hlen ▸ hbytes)
  have himage : bytes.length = (machine.image d).length := by
    rw [hlen, length_image hdty, machine.target.byteSize_eq_exactSize hexact]
  obtain ⟨levels, hlevels⟩ : ∃ levels, levelsBelow depth = levels + 1 := by
    cases hlevels : levelsBelow depth with
    | zero =>
      rw [hlevels] at hd
      cases hd
    | succ levels => exact ⟨levels, rfl⟩
  have hread := exists_resolveByte_of_whole hlen (fun b i hb => (hall b i hb).2) hsize hdty levels
  have hclass : ∀ b ∈ rest, first.entangled b = true := by
    intro b hb
    obtain ⟨i, hi⟩ := List.getElem?_of_mem (hcons ▸ List.mem_cons_of_mem first hb)
    exact (hall b i hi).1
  -- so the bytes are one class, and the walk over it reads the image from end to end
  rw [hlevels] at hd
  have hvalue := valueOfBytesBy_singleton (machine.concretizeWithin (levels + 1)) (hcons ▸ hlen)
    hclass
  rw [hd, Outcome.ok_bind, ← hcons] at hvalue
  rw [valueOfBytes, hlevels, hvalue]
  cases hpoison : d.isPoison with
  | true =>
    obtain ⟨t, rfl⟩ : ∃ t, d = .poison t := by cases d <;> simp_all [Value.isPoison]
    refine ⟨fun _ => rfl, ?_⟩
    intro hno
    -- there is a first byte, so the type has bytes
    rw [Target.noPoisonBytes_poison, ← hdty.poison_eq, ← hlen, hcons] at hno
    simp at hno
  | false =>
    constructor
    · intro hno
      simp only [gather_resolveItem_eq_none hno himage hread, Bool.false_eq_true, if_false,
        Outcome.ok_bind]
    · intro hno
      obtain ⟨resolved, values, hgather, hassemble, hvalues⟩ :=
        exists_assemble_eq_image hno himage hread
      simp only [hgather, hassemble, Bool.false_eq_true, if_false, Outcome.ok_bind]
      exact ofBytes_image_fillEmptyPoison hflat hp hdty hty hexact hfits hno hvalues

/-! ## A record with an empty part -/

/-- A record of a number, poison of a type without bytes, and an address. -/
def emptyPoisonRecord : Value :=
  .aggregate (.record .struct)
    [.int ⟨.i32, 7⟩, .poison (.array 0 (.int 64)), .address ⟨4096, .allocation 3⟩]

/-- The type of `emptyPoisonRecord`. -/
def emptyPoisonRecordTy : Ty := .record .struct [.int 32, .array 0 (.int 64), .pointer]

/-- Poison in a member without bytes is lost on the way, and an address comes back without what it
points into; nothing else is. -/
theorem valueOfBytes_emptyPoisonRecord :
    (standard .standard).intactParent?
        (SymByte.run emptyPoisonRecord.toSym (.stored 1) emptyPoisonRecordTy 1 12)
        emptyPoisonRecordTy = some emptyPoisonRecord.toSym ∧
      (standard .standard).valueOfBytes
        (SymByte.run emptyPoisonRecord.toSym (.stored 1) emptyPoisonRecordTy 1 12)
        emptyPoisonRecordTy 0 =
      .ok (.aggregate (.record .struct)
        [.int ⟨.i32, 7⟩, .aggregate (.sequence .array) [], .address ⟨4096, .wildcard⟩]) := by
  have hintact : (standard .standard).intactParent?
      (SymByte.run emptyPoisonRecord.toSym (.stored 1) emptyPoisonRecordTy 1 12)
      emptyPoisonRecordTy = some emptyPoisonRecord.toSym := rfl
  have hd : (standard .standard).concretizeWithin (levelsBelow 0) emptyPoisonRecord.toSym =
      .ok emptyPoisonRecord := rfl
  have hty : emptyPoisonRecord.HasTy emptyPoisonRecordTy :=
    .aggregate rfl (.cons (.scalar _) (.cons (.poison _) (.cons (.scalar _) .nil)))
  have hfits : emptyPoisonRecord.ScalarsIn Target.standard.Fits := by
    simp [emptyPoisonRecord, Target.Fits, Target.pointerBits, Target.standard]
  have hno : Target.standard.NoPoisonBytes emptyPoisonRecord := by
    simp [emptyPoisonRecord, Target.byteSize, saturate]
  exact ⟨hintact, (valueOfBytes_of_intactParent rfl (by decide) (by decide) (by decide) hintact hd
    hty hfits (by decide)).2 hno⟩

end SymbolicBytes.Machine
