import SymbolicBytes.Proofs.ByteCodec
import SymbolicBytes.Proofs.Conversions
/-!
# Bitcasts in a row

A bitcast keeps the bytes of a value, however differently the two types cut them into scalars
(`SpelledBy.exists_bitcast`), as long as the type that is cast to has no single bits, which would
drop the rest of their bytes. What a value is cast to is told by its bytes alone, up to the
provenance of addresses, and that includes the cast to the type that it already has, which leaves
bytes alone (`SpelledBy.exists_ofBytes`).

So casting on from a type without single bits is casting in one go, and casting back undoes the cast
(`exists_bitcast_bitcast`).
-/

namespace SymbolicBytes.Machine

variable {machine : Machine} {bytes : List UInt8} {t u w : Ty} {d e : Value}

/-- Whether bytes spell a value of a type: they are the bytes of the value, which can be told from
them up to the provenance of its addresses. -/
structure SpelledBy (machine : Machine) (bytes : List UInt8) (t : Ty) (d : Value) : Prop where
  /-- values of the type can be made of bytes -/
  supported : t.Supported
  /-- a size can count the bytes -/
  size : machine.target.exactSize t ≤ maxSize
  /-- the value has the type -/
  hasTy : d.HasTy t
  /-- nothing of it is poison -/
  poisonFree : d.PoisonFree
  /-- its pointer-sized scalars fit into a pointer -/
  fits : d.ScalarsIn machine.target.Fits
  /-- the bytes are those of the value -/
  image : machine.image d = bytes.map some

/-- A value without poison is spelled by its image. All that is shown of casts below is shown of
bytes that spell a value. -/
theorem exists_spelledBy (ht : t.Supported) (hsize : machine.target.exactSize t ≤ maxSize)
    (hty : d.HasTy t) (hfree : d.PoisonFree) (hfits : d.ScalarsIn machine.target.Fits) :
    ∃ bytes, machine.SpelledBy bytes t d := by
  obtain ⟨bytes, himage⟩ : ∃ bytes : List UInt8, machine.image d = bytes.map some :=
    exists_image_eq_map_some hfree.noPoisonBytes
  exact ⟨bytes, ht, hsize, hty, hfree, hfits, himage⟩

namespace SpelledBy

theorem length_eq (h : machine.SpelledBy bytes t d) :
    bytes.length = machine.target.exactSize t := by
  rw [← length_image h.hasTy, h.image, List.length_map]

theorem bytesOf_eq (h : machine.SpelledBy bytes t d) :
    machine.bytesOf d t = .ok (some bytes) :=
  gather_eq_some_iff.2 (forall₂_byteAt_of_image h.hasTy h.size h.image)

/-- What bytes spell can be told from them, up to the provenance of addresses. -/
theorem ofBytes_eq (hflat : machine.addresses = .flat) (hp : machine.target.pointerSize ≤ 8)
    (h : machine.SpelledBy bytes t d) : machine.ofBytes t bytes = .ok d.withWildcards :=
  ofBytes_image hflat hp h.hasTy h.supported h.size h.fits h.poisonFree h.image

section Cast

variable (hflat : machine.addresses = .flat) (hp : machine.target.pointerSize ≤ 8)
  (h : machine.SpelledBy bytes t d) (hu : u.Supported)
  (hsize : machine.target.exactSize t = machine.target.exactSize u)

include hflat h hu hsize

/-- A cast to another type reads the bytes of the value at that type. A cast to its own type does
not look at them, and is kept apart below. -/
theorem exists_bitcast_of_ne (hne : t ≠ u) :
    ∃ e, machine.bitcast t d u = .ok e ∧ machine.ofBytes u bytes = .ok e := by
  have husize : machine.target.exactSize u ≤ maxSize := hsize ▸ h.size
  have hsizes : machine.target.byteSize t = machine.target.byteSize u := by
    rw [machine.target.byteSize_eq_exactSize h.size, machine.target.byteSize_eq_exactSize husize,
      hsize]
  obtain ⟨e, he⟩ := exists_ofBytes_eq_ok hflat hu husize (h.length_eq.trans hsize)
  exact ⟨e, (bitcast_eq_ofBytes hne h.supported hu hsizes h.bytesOf_eq).trans he, he⟩

include hp

/-- What is cast to a type without single bits is spelled by the same bytes. Otherwise the bytes of
what is cast to would have lost all bits but one of such a place. -/
theorem exists_bitcast (hbits : true ∉ machine.target.bitPlaces u) :
    ∃ e, machine.bitcast t d u = .ok e ∧ machine.SpelledBy bytes u e := by
  by_cases hne : t = u
  · subst hne
    exact ⟨d, by rw [bitcast, if_pos rfl], h⟩
  · have husize : machine.target.exactSize u ≤ maxSize := hsize ▸ h.size
    obtain ⟨e, hcast, he⟩ := h.exists_bitcast_of_ne hflat hu hsize hne
    have hplaces : machine.target.bitPlaces u = List.replicate bytes.length false := by
      rw [h.length_eq, hsize, ← machine.target.length_bitPlaces]
      refine List.eq_replicate_of_mem fun single hsingle => ?_
      exact Bool.eq_false_iff.2 fun htrue => hbits (htrue ▸ hsingle)
    have himage := image_ofBytes hflat hp husize he
    rw [hplaces, keepBits_replicate_false] at himage
    exact ⟨e, hcast, hu, husize, hasTy_ofBytes he, poisonFree_ofBytes he,
      fits_ofBytes hflat hp he, himage⟩

/-- What is cast to any type is told by the bytes, up to the provenance of addresses. The cast to
the type of the value itself keeps provenance, which is why the two sides are only alike. -/
theorem exists_ofBytes :
    ∃ e, machine.bitcast t d u = .ok e ∧ machine.ofBytes u bytes = .ok e.withWildcards := by
  by_cases hne : t = u
  · subst hne
    exact ⟨d, by rw [bitcast, if_pos rfl], h.ofBytes_eq hflat hp⟩
  · obtain ⟨e, hcast, he⟩ := h.exists_bitcast_of_ne hflat hu hsize hne
    rw [← withWildcards_ofBytes hflat he] at he
    exact ⟨e, hcast, he⟩

end Cast

end SpelledBy

/-! ## Casts of casts -/

theorem concretizeWithin_bitcast {levels : Nat} {x : SymValue}
    (hx : machine.concretizeWithin levels x = .ok d) (hd : d.PoisonFree)
    (he : machine.bitcast t d u = .ok e) :
    machine.concretizeWithin (levels + 1) (.cast .bitcast t x u) = .ok e :=
  (concretizeWithin_cast hx hd.isPoison_eq_false).trans he

/-- What is decided with more levels than there are is decided so unless it is too deep. A cast of a
value takes one level more than the value, which may have used them all. -/
theorem sameUnlessTooDeep_concretize {more : Nat} {x : SymValue}
    (h : machine.concretizeWithin (depthLimit + 1 + more) x = .ok d) :
    (machine.concretize x).SameUnlessTooDeep (.ok d) :=
  h ▸ sameUnlessTooDeep_of_le (Nat.le_add_right _ more) x

/-- Casting a value to a type without single bits, and on to a third type, is casting it to that
type, up to the provenance of addresses; and casting it back gives the value. The same holds of
casts that wait in a symbolic value, as long as there are levels left for them. -/
theorem exists_bitcast_bitcast (hflat : machine.addresses = .flat)
    (hp : machine.target.pointerSize ≤ 8) (ht : t.Supported) (hu : u.Supported) (hw : w.Supported)
    (hsize : machine.target.exactSize t ≤ maxSize)
    (husize : machine.target.exactSize u = machine.target.exactSize t)
    (hwsize : machine.target.exactSize w = machine.target.exactSize t)
    (hbits : true ∉ machine.target.bitPlaces u) (hty : d.HasTy t) (hfree : d.PoisonFree)
    (hfits : d.ScalarsIn machine.target.Fits) :
    ∃ e f g back,
      machine.bitcast t d u = .ok e ∧ machine.bitcast u e w = .ok f ∧
      machine.bitcast t d w = .ok g ∧ f.withWildcards = g.withWildcards ∧
      machine.bitcast u e t = .ok back ∧ back.withWildcards = d.withWildcards ∧
      ∀ x, machine.concretize x = .ok d →
        (machine.concretize (.cast .bitcast t x w)).SameUnlessTooDeep (.ok g) ∧
        (machine.concretize (.cast .bitcast u (.cast .bitcast t x u) w)).SameUnlessTooDeep
          (.ok f) := by
  obtain ⟨bytes, hd⟩ := exists_spelledBy ht hsize hty hfree hfits
  obtain ⟨e, he, hspelled⟩ := hd.exists_bitcast hflat hp hu husize.symm hbits
  obtain ⟨f, hf, hfbytes⟩ := hspelled.exists_ofBytes hflat hp hw (husize.trans hwsize.symm)
  obtain ⟨g, hg, hgbytes⟩ := hd.exists_ofBytes hflat hp hw hwsize.symm
  obtain ⟨back, hback, hbackBytes⟩ := hspelled.exists_ofBytes hflat hp ht husize
  refine ⟨e, f, g, back, he, hf, hg, ?_, hback, ?_, ?_⟩
  · -- both casts are told by the same bytes
    exact Except.ok.inj (hfbytes.symm.trans hgbytes)
  · exact Except.ok.inj (hbackBytes.symm.trans (hd.ofBytes_eq hflat hp))
  · intro x hx
    have hdirect : machine.concretizeWithin (depthLimit + 1 + 1) (.cast .bitcast t x w) = .ok g :=
      concretizeWithin_bitcast hx hfree hg
    have hinner : machine.concretizeWithin (depthLimit + 1 + 1) (.cast .bitcast t x u) = .ok e :=
      concretizeWithin_bitcast hx hfree he
    have houter : machine.concretizeWithin (depthLimit + 1 + 2)
        (.cast .bitcast u (.cast .bitcast t x u) w) = .ok f :=
      concretizeWithin_bitcast hinner hspelled.poisonFree hf
    exact ⟨sameUnlessTooDeep_concretize hdirect, sameUnlessTooDeep_concretize houter⟩

/-- A truth value, an address and two numbers, one behind the other. -/
def packedParts : Value :=
  .aggregate (.record .packed)
    [.bit true, .address ⟨0x1002, .allocation 3⟩,
      .aggregate (.record .struct) [.int ⟨.i8, 7⟩, .iptr 0xfffe]]

/-- The type of `packedParts`, which cuts 18 bytes after 1, after 9 and after 10. -/
def packedPartsTy : Ty := .record .packed [.bit, .pointer, .record .struct [.int 8, .iptr]]

/-- A type that cuts 18 bytes after 8, after 16 and after 17. -/
def wordsTy : Ty := .record .packed [.int 64, .iptr, .array 2 (.int 8)]

/-- A type that cuts 18 bytes after 8, after 9 and after 17. -/
def taggedTy : Ty := .array 2 (.record .struct [.float .double, .bit])

/-- Three types that cut the same bytes at different places, so that no scalar of the first is a
scalar of the second. -/
theorem exists_bitcast_bitcast_packedParts :
    ∃ e f g back,
      (standard .standard).bitcast packedPartsTy packedParts wordsTy = .ok e ∧
      (standard .standard).bitcast wordsTy e taggedTy = .ok f ∧
      (standard .standard).bitcast packedPartsTy packedParts taggedTy = .ok g ∧
      f.withWildcards = g.withWildcards ∧
      (standard .standard).bitcast wordsTy e packedPartsTy = .ok back ∧
      back.withWildcards = packedParts.withWildcards := by
  have hty : packedParts.HasTy packedPartsTy :=
    .aggregate rfl (.cons (.scalar _) (.cons (.scalar _) (.cons (.aggregate rfl
      (.cons (.scalar _) (.cons (.scalar _) .nil))) .nil)))
  have hfree : packedParts.PoisonFree := by simp [packedParts, Value.bit]
  have hfits : packedParts.ScalarsIn Target.standard.Fits := by
    simp [packedParts, Value.bit, Target.Fits, Target.pointerBits, Target.standard]
  have ht : packedPartsTy.Supported := by decide
  have hu : wordsTy.Supported := by decide
  have hw : taggedTy.Supported := by decide
  have hbits : true ∉ Target.standard.bitPlaces wordsTy := by decide
  have hflat : (standard .standard).addresses = .flat := rfl
  obtain ⟨e, f, g, back, he, hf, hg, hsame, hback, hrest, -⟩ :=
    exists_bitcast_bitcast hflat (by decide) ht hu hw (by decide) (by decide) (by decide) hbits
      hty hfree hfits
  exact ⟨e, f, g, back, he, hf, hg, hsame, hback, hrest⟩

end SymbolicBytes.Machine
