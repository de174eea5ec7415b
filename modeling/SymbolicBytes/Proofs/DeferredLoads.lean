import SymbolicBytes.Proofs.ByteCodec
import SymbolicBytes.Proofs.ByteMemory
import SymbolicBytes.Proofs.ConcreteValues
import SymbolicBytes.Proofs.Renumbering
/-!
# Storing a load before or after it is decided

Loaded bytes that are stored as they are, and the value that they are decided as stored in their
place, cannot be told apart by loads, up to the provenance of addresses
(`exists_concretize_deferred`). There are two provisos. A byte that is loaded as a single bit keeps
only that bit when it is decided, while the stored bytes keep all of it; so a load that asks for
more of such a byte must find 0 or 1 there to begin with. And the value must not be nested so deep
that it cannot be decided again inside bytes.

Both stores are read as plain bytes: the one has the numbers that the loaded bytes carry, and the
other has the same numbers with single bits cut down (`storedBytes_eq_keepBits`).
-/

namespace SymbolicBytes

/-! ## Single bits -/

section Bits

variable {places : List Bool} {bytes : List UInt8}

theorem length_keepBits (h : places.length = bytes.length) :
    (keepBits places bytes).length = bytes.length := by
  rw [keepBits, List.length_zipWith, h, Nat.min_self]

/-- Single bits are cut down in a piece where they are in the whole. -/
theorem keepBits_slice (places : List Bool) (bytes : List UInt8) (start count : Nat) :
    ((keepBits places bytes).drop start).take count =
      keepBits ((places.drop start).take count) ((bytes.drop start).take count) := by
  rw [keepBits, List.drop_zipWith, List.take_zipWith]

theorem arrange_keepBits (target : Target) (h : places.length = bytes.length) :
    target.arrange (keepBits places bytes) =
      keepBits (target.arrange places) (target.arrange bytes) := by
  rw [Target.arrange, Target.arrange, Target.arrange]
  cases target.endian
  · rfl
  · exact List.reverse_zipWith h

/-- For every byte, whether it is stored as a single bit and loaded as more. -/
def widened : List Bool → List Bool → List Bool :=
  List.zipWith fun stored loaded => stored && !loaded

/-- Bytes that are zero or one where a single bit is loaded as more are loaded alike, whether they
are cut down to single bits before or not. -/
theorem keepBits_keepBits {stored loaded : List Bool} (hlen : loaded.length = stored.length)
    (h : List.Forall₂ (fun x wide => wide = true → x = 0 ∨ x = 1) bytes (widened stored loaded)) :
    keepBits loaded (keepBits stored bytes) = keepBits loaded bytes := by
  induction stored generalizing loaded bytes with
  | nil =>
    obtain rfl := List.eq_nil_of_length_eq_zero hlen
    rfl
  | cons single stored ih =>
    cases loaded with
    | nil => cases hlen
    | cons kept loaded =>
      obtain ⟨x, bytes, hx, hrest, rfl⟩ := List.forall₂_cons_right_iff.1 h
      have hbyte : (if kept then (if single then x &&& 1 else x) &&& 1
          else if single then x &&& 1 else x) = if kept then x &&& 1 else x := by
        cases kept <;> cases single
        · rfl
        · rcases hx rfl with rfl | rfl <;> rfl
        · rfl
        · simp [UInt8.and_assoc]
      exact congrArg₂ List.cons hbyte (ih (Nat.succ.inj hlen) hrest)

end Bits

namespace Machine

variable {machine : Machine} {target : Target}

/-! ## Bytes as stores make them -/

/-- Whether a byte is one as stores make them: its parent is decided as a value of the type that it
was stored at, and its position is written out and lies inside. -/
def Emitted (machine : Machine) (b : SymByte) : Prop :=
  ∃ d i, machine.Denotes b.parent b.ty d ∧ b.literalIndex? = some i ∧
    i < machine.target.byteSize b.ty

/-- A byte as stores make them carries a number. -/
theorem Emitted.exists_carries {b : SymByte} (h : machine.Emitted b) :
    ∃ x, machine.Carries b x := by
  obtain ⟨d, i, hd, hindex, hi⟩ := h
  obtain ⟨xs, hxs⟩ : ∃ xs : List UInt8, machine.image d = xs.map some :=
    exists_image_eq_map_some hd.poisonFree.noPoisonBytes
  have hlen : i < xs.length := by
    rw [← List.length_map some, ← hxs, length_image hd.hasTy]
    exact Nat.lt_of_lt_of_le hi (machine.target.byteSize_le_exactSize b.ty)
  refine ⟨xs[i], d, i, hd, hindex, hi, ?_⟩
  rw [hxs, List.getElem?_map, List.getElem?_eq_getElem hlen, Option.map_some]

/-- Bytes that share a heap have parents that are decided alike where they are entangled: the
parents are one, or they are equal, and equal values of one heap are decided alike. -/
theorem DecidedAlike.of_shared {heap : ParentRef → SymValue} {bytes : List SymByte}
    (h : ∀ b ∈ bytes, b.SharedIn heap) : machine.DecidedAlike bytes :=
  fun a ha b hb hab levels => decide_parent_of_entangled (h a ha) (h b hb) hab levels

/-! ## Bytes that are read as plain bytes -/

/-- Whether bytes, of which there are not too many to be sized, carry numbers on which their parents
agree. -/
structure Spells (machine : Machine) (bytes : List SymByte) (raw : List UInt8) : Prop where
  /-- every byte carries a number -/
  carries : List.Forall₂ machine.Carries bytes raw
  /-- the parents of entangled bytes are decided alike -/
  alike : machine.DecidedAlike bytes
  /-- sizes are exact -/
  short : bytes.length < maxSize

namespace Spells

variable {bytes : List SymByte} {raw : List UInt8}

/-- Bytes as stores make them are read as plain bytes, namely as the numbers that they carry. -/
theorem exists_of_emitted {heap : ParentRef → SymValue} (hshared : ∀ b ∈ bytes, b.SharedIn heap)
    (hemitted : ∀ b ∈ bytes, machine.Emitted b) (hlt : bytes.length < maxSize) :
    ∃ raw, machine.Spells bytes raw := by
  obtain ⟨raw, hraw⟩ := exists_forall₂ fun b hb => (hemitted b hb).exists_carries
  exact ⟨raw, hraw, .of_shared hshared, hlt⟩

/-- The bytes of one store are read as plain bytes. They are decided alike, since they have one
parent. -/
theorem of_run {v : SymValue} {t : Ty} {d : Value} (h : machine.StandsFor v t d) (ref : ParentRef)
    (id : Nat) (hlt : machine.target.byteSize t < maxSize) :
    machine.Spells (SymByte.run v ref t id (machine.target.byteSize t))
      (machine.storedBytes d t) where
  carries := (backed_run h ref id).imp fun _ _ => Backed.carries
  alike a ha b hb _ levels := by
    obtain ⟨_, -, rfl⟩ := List.mem_map.1 ha
    obtain ⟨_, -, rfl⟩ := List.mem_map.1 hb
    rfl
  short := by rwa [SymByte.length_run]

/-- The order in memory matters no more than that of the numbers. -/
theorem arrange (h : machine.Spells bytes raw) :
    machine.Spells (machine.target.arrange bytes) (machine.target.arrange raw) where
  carries := Target.forall₂_arrange.2 h.carries
  alike := h.alike.mono fun _ hb => Target.mem_arrange.1 hb
  short := by rw [Target.length_arrange]; exact h.short

/-- Bytes that are numbered carry what they carried, and are decided alike where they were. -/
theorem renumber (h : machine.Spells bytes raw) (start : Nat) :
    machine.Spells (renumber start bytes) raw where
  carries := List.forall₂_map_left_iff.2 (h.carries.imp fun _ _ hb => hb)
  alike a ha b hb hab := by
    obtain ⟨a₀, ha₀, rfl⟩ := List.mem_map.1 ha
    obtain ⟨b₀, hb₀, rfl⟩ := List.mem_map.1 hb
    rw [SymByte.entangled_renamed (storeId_eq_of_idxOf_eq ha₀)] at hab
    exact h.alike a₀ ha₀ b₀ hb₀ hab
  short := by rw [SymbolicBytes.renumber, List.length_map]; exact h.short

/-- A part of bytes that are read as plain bytes is read as that part of them. -/
theorem slice (h : machine.Spells bytes raw) (start count : Nat) :
    machine.Spells ((bytes.drop start).take count) ((raw.drop start).take count) where
  carries := forall₂_slice h.carries start count
  alike := h.alike.mono fun _ hb => List.mem_of_mem_drop (List.mem_of_mem_take hb)
  short := by
    have hshort := h.short
    rw [List.length_take, List.length_drop]
    omega

/-- A load of bytes that are read as plain bytes is decided as the value that those spell. -/
theorem exists_concretize_decode (h : (standard target).Spells bytes raw)
    (hp : target.pointerSize ≤ 8) {u : Ty} (hu : u.Supported)
    (hlen : raw.length = target.byteSize u) :
    ∃ v d, (standard target).decode bytes u = .ok v ∧ (standard target).concretize v = .ok d ∧
      (standard target).ofBytes u (target.arrange raw) = .ok d.withWildcards :=
  exists_concretize_decode_of_carries hp h.carries h.alike hu h.short
    (h.carries.length_eq.trans hlen)

end Spells

/-! ## Deciding before the store -/

section Decided

variable {raw : List UInt8} {t : Ty} {d : Value}

/-- There is a place for every byte that a value is built from. -/
theorem length_bitPlaces_of_ofBytes (h : machine.ofBytes t raw = .ok d)
    (hlt : raw.length < maxSize) : (machine.target.bitPlaces t).length = raw.length := by
  have hlen := length_of_ofBytes_eq_ok h
  rw [Target.length_bitPlaces, hlen,
    Target.byteSize_eq_exactSize _ (Target.exactSize_le_of_byteSize_lt _ (hlen ▸ hlt))]

variable (hp : target.pointerSize ≤ 8)
  (hbuild : (standard target).ofBytes t raw = .ok d.withWildcards)

include hp hbuild

/-- A decided load has the numbers that its bytes carry, with single bits cut down. This is all that
is lost by deciding it, but for the provenance of its addresses. -/
theorem storedBytes_eq_keepBits (hlt : raw.length < maxSize) :
    (standard target).storedBytes d t = keepBits (target.bitPlaces t) raw := by
  have hlen : raw.length = target.byteSize t := length_of_ofBytes_eq_ok hbuild
  have hexact : target.exactSize t ≤ maxSize := target.exactSize_le_of_byteSize_lt (hlen ▸ hlt)
  have himage : (standard target).image d = (keepBits (target.bitPlaces t) raw).map some := by
    rw [← image_withWildcards rfl]
    exact image_ofBytes rfl hp hexact hbuild
  have hcount : (keepBits (target.bitPlaces t) raw).length = target.byteSize t :=
    (length_keepBits (length_bitPlaces_of_ofBytes hbuild hlt)).trans hlen
  rw [storedBytes, himage, ← List.map_take, List.map_map]
  exact (List.map_id _).trans (List.take_of_length_le (Nat.le_of_eq hcount))

/-- A decided load that is written out and is not too deep stands for itself. It takes a level more
inside bytes than by itself, which is why its height is to be below the limit. -/
theorem standsFor_toSym (hheight : d.height < depthLimit)
    (hsize : target.byteSize t ≤ 2 ^ target.pointerBits) :
    (standard target).StandsFor d.toSym t d := by
  have hfits : d.ScalarsIn target.Fits :=
    (fits_ofBytes rfl hp hbuild).of_withWildcards fun _ ha => ha
  have hcanonical : d.ScalarsIn target.Canonical := fun s hs =>
    Target.canonical_of_fits (hfits s hs)
  exact {
    plain := d.toSym_ne_concat
    whole := concretizeWithin_toSym hcanonical (Nat.lt_succ_of_lt hheight)
    inside := concretizeWithin_toSym hcanonical hheight
    hasTy := (hasTy_ofBytes hbuild).of_withWildcards
    poisonFree := (poisonFree_ofBytes hbuild).of_withWildcards
    addresses := fun s hs a ha => by subst ha; exact hfits _ hs
    size := hsize }

/-- A decided load that is not too deep can be stored, as long as there is an id left, and is then
read as the numbers that its bytes carry, with single bits cut down. -/
theorem exists_encode_decided (ht : t.Supported) (hlt : raw.length < maxSize)
    (hheight : d.height < depthLimit) (hsize : target.byteSize t ≤ 2 ^ target.pointerBits)
    {ids : StoreIds} (hids : ids.next < StoreIds.last) :
    ∃ out ids', (standard target).encode d.toSym t ids = (.ok out, ids') ∧
      (standard target).Spells out (target.arrange (keepBits (target.bitPlaces t) raw)) := by
  have hstands := standsFor_toSym hp hbuild hheight hsize
  have hlen : raw.length = target.byteSize t := length_of_ofBytes_eq_ok hbuild
  obtain ⟨out, ids', hout⟩ := exists_encode_toSym (standard target) hstands.hasTy ht
    (Nat.le_of_lt hheight) hids
  refine ⟨out, ids', hout, ?_⟩
  rw [(encode_eq_ok_of_plain hstands.plain hout).1, ← storedBytes_eq_keepBits hp hbuild hlt]
  exact (Spells.of_run hstands _ _ (hlen ▸ hlt)).arrange

end Decided

/-! ## Before or after -/

/-- Whether a byte, if its place is `wide`, is read as zero or one. -/
def FitsPlace (machine : Machine) (b : SymByte) (wide : Bool) : Prop :=
  wide = true → ∃ x, machine.resolveAlone (machine.concretizeWithin depthLimit) b = .ok (some x) ∧
    (x = 0 ∨ x = 1)

/-- Bytes that fit their places carry numbers that do. -/
theorem Spells.fitsPlaces {bytes : List SymByte} {raw : List UInt8} {places : List Bool}
    (h : machine.Spells bytes raw) (hfits : List.Forall₂ machine.FitsPlace bytes places) :
    List.Forall₂ (fun x wide => wide = true → x = 0 ∨ x = 1) raw places := by
  apply forall₂_of_common h.carries hfits
  intro b x wide hx hfit hwide
  obtain ⟨y, hy, hbit⟩ := hfit hwide
  rwa [Option.some.inj (Except.ok.inj (hx.resolveAlone.symm.trans hy))]

/-- Bytes and the same bytes with single bits cut down are the same value of a type that asks for no
more of them. Which types do is told place by place, so a load may take some bytes as single bits
and others as more. -/
theorem ofBytes_keepBits_eq {raw : List UInt8} {places : List Bool} {u : Ty} {x y : Value}
    (hp : target.pointerSize ≤ 8) (hu : u.Supported) (hlt : raw.length < maxSize)
    (hplaces : places.length = raw.length)
    (hx : (standard target).ofBytes u (target.arrange raw) = .ok x)
    (hy : (standard target).ofBytes u (target.arrange (keepBits places raw)) = .ok y)
    (hfits : List.Forall₂ (fun b wide => wide = true → b = 0 ∨ b = 1) raw
      (widened places (target.arrange (target.bitPlaces u)))) : x = y := by
  have hlen : raw.length = target.byteSize u := by
    rw [← target.length_arrange raw]
    exact length_of_ofBytes_eq_ok hx
  have hexact : target.exactSize u ≤ maxSize := target.exactSize_le_of_byteSize_lt (hlen ▸ hlt)
  have hkept : (target.arrange (target.bitPlaces u)).length = raw.length := by
    rw [target.length_arrange, target.length_bitPlaces, hlen, target.byteSize_eq_exactSize hexact]
  have hcut := length_keepBits hplaces
  have hsame : keepBits (target.bitPlaces u) (target.arrange (keepBits places raw)) =
      keepBits (target.bitPlaces u) (target.arrange raw) := by
    rw [← target.arrange_arrange (target.bitPlaces u), ← arrange_keepBits target hkept,
      ← arrange_keepBits target (hkept.trans hcut.symm),
      keepBits_keepBits (hkept.trans hplaces.symm) hfits]
  have hx' := ofBytes_keepBits rfl hp hu hexact hx
  have hy' := ofBytes_keepBits rfl hp hu hexact hy
  exact Except.ok.inj (hx'.symm.trans (hsame ▸ hy'))

/-- Loads of bytes that carry numbers, and of others that carry them with single bits cut down, are
decided, as the same value where no single bit is loaded as more. -/
theorem Spells.exists_concretize_keepBits {lazy eager : List SymByte} {raw : List UInt8}
    {places : List Bool} {u : Ty} (hlazy : (standard target).Spells lazy raw)
    (heager : (standard target).Spells eager (keepBits places raw)) (hp : target.pointerSize ≤ 8)
    (hplaces : places.length = raw.length) (hu : u.Supported)
    (hlen : lazy.length = target.byteSize u) :
    ∃ v x w y,
      (standard target).decode lazy u = .ok v ∧ (standard target).concretize v = .ok x ∧
      (standard target).decode eager u = .ok w ∧ (standard target).concretize w = .ok y ∧
      (List.Forall₂ (standard target).FitsPlace lazy
          (widened places (target.arrange (target.bitPlaces u))) →
        x.withWildcards = y.withWildcards) := by
  have hlt := hlazy.short
  rw [hlazy.carries.length_eq] at hlen hlt
  obtain ⟨v, x, hv, hx, hxRaw⟩ := hlazy.exists_concretize_decode hp hu hlen
  obtain ⟨w, y, hw, hy, hyRaw⟩ := heager.exists_concretize_decode hp hu
    ((length_keepBits hplaces).trans hlen)
  refine ⟨v, x, w, y, hv, hx, hw, hy, fun hfits => ?_⟩
  exact ofBytes_keepBits_eq hp hu hlt hplaces hxRaw hyRaw (hlazy.fitsPlaces hfits)

/-- Storing a load as it is and storing what it is decided as come to the same. Both stores succeed,
as long as there are ids left, and of every part of them every load of a type of its size is
decided; it is the same value up to the provenance of its addresses, if the bytes that are single
bits of the type of the store and more in the type of the load are read as zero or one. So when a
load is decided is a matter of choice, within these bounds. No list has as many bytes as the largest
size, at which sizes are no longer exact. -/
theorem exists_concretize_deferred {heap : ParentRef → SymValue} {bytes : List SymByte} {t : Ty}
    {d : Value} {ids ids' : StoreIds} (hp : target.pointerSize ≤ 8)
    (hsize : target.byteSize t ≤ 2 ^ target.pointerBits) (hlt : bytes.length < maxSize)
    (hshared : ∀ b ∈ bytes, b.SharedIn heap) (hemitted : ∀ b ∈ bytes, (standard target).Emitted b)
    (hd : (standard target).concretize (.concat bytes t) = .ok d) (hheight : d.height < depthLimit)
    (hids : ids.next + (distinctIds bytes).length ≤ StoreIds.last)
    (hids' : ids'.next < StoreIds.last) :
    ∃ lazy rest eager rest',
      (standard target).encode (.concat bytes t) t ids = (.ok lazy, rest) ∧
      (standard target).encode d.toSym t ids' = (.ok eager, rest') ∧
      ∀ start count u, u.Supported →
        ((lazy.drop start).take count).length = target.byteSize u →
        ∃ v x w y,
          (standard target).decode ((lazy.drop start).take count) u = .ok v ∧
          (standard target).concretize v = .ok x ∧
          (standard target).decode ((eager.drop start).take count) u = .ok w ∧
          (standard target).concretize w = .ok y ∧
          (List.Forall₂ (standard target).FitsPlace ((lazy.drop start).take count)
              (widened (((target.arrange (target.bitPlaces t)).drop start).take count)
                (target.arrange (target.bitPlaces u))) →
            x.withWildcards = y.withWildcards) := by
  obtain ⟨ht, hlen⟩ := of_concretize_concat_eq_ok hd
  obtain ⟨raw, hraw⟩ := Spells.exists_of_emitted hshared hemitted hlt
  obtain ⟨_, hd', hbuild⟩ := exists_concretize_concat hp hraw.carries hraw.alike ht hlt hlen
  obtain rfl := Except.ok.inj (hd.symm.trans hd')
  rw [hraw.carries.length_eq] at hlt
  have hplaces : (target.bitPlaces t).length = raw.length := length_bitPlaces_of_ofBytes hbuild hlt
  -- the one store has the plain bytes, and the other has them with single bits cut down
  obtain ⟨rest, hlazy, -⟩ := exists_encode_concat (standard target) t ht hlen hids
  obtain ⟨eager, rest', heager, heagerRaw⟩ :=
    exists_encode_decided hp hbuild ht hlt hheight hsize hids'
  have hlazyRaw : (standard target).Spells (target.arrange (renumber ids.next bytes))
      (target.arrange raw) := (hraw.renumber ids.next).arrange
  rw [arrange_keepBits target hplaces] at heagerRaw
  refine ⟨_, rest, eager, rest', hlazy, heager, ?_⟩
  intro start count u hu hpart
  have heagerPart := heagerRaw.slice start count
  rw [keepBits_slice] at heagerPart
  exact (hlazyRaw.slice start count).exists_concretize_keepBits heagerPart hp
    (by simp [hplaces]) hu hpart

/-! ## What deciding first loses -/

/-- The one byte of the number 2. -/
def twoByte : SymByte := ⟨.scalar (.int ⟨.i8, 2⟩), .stored 1, .int 8, .iptr 0, 1⟩

/-- The type of numbers of one byte inside so many arrays of one element. -/
def boxTy : Nat → Ty
  | 0 => .int 8
  | n + 1 => .array 1 (boxTy n)

/-- The number 2 inside so many arrays of one element. -/
def boxed : Nat → Value
  | 0 => .int ⟨.i8, 2⟩
  | n + 1 => .aggregate (.sequence .array) [boxed n]

theorem height_boxed (n : Nat) : (boxed n).height = n := by
  induction n with
  | zero => rfl
  | succ n ih =>
    rw [Value.height] at ih
    simp [boxed, Value.height, Value.toSym, Value.toSyms, SymValue.nesting, SymValue.nestings, ih]

theorem byteSize_boxTy (n : Nat) : target.byteSize (boxTy n) = 1 := by
  induction n with
  | zero => rfl
  | succ n ih => simp [boxTy, Target.byteSize, ih, saturate, maxSize]

theorem supported_boxTy (n : Nat) : (boxTy n).Supported := by
  induction n with
  | zero => decide
  | succ n ih => simpa [boxTy, Ty.Supported, Ty.unsupported?] using ih

theorem ofBytes_boxTy (machine : Machine) (n : Nat) :
    machine.ofBytes (boxTy n) [2] = .ok (boxed n) := by
  have hcheck (m : Nat) : machine.checkBytes (boxTy m) [(2 : UInt8)].length = .ok () :=
    checkBytes_eq_ok_iff.2 ⟨supported_boxTy m, (byteSize_boxTy m).symm⟩
  induction n with
  | zero =>
    rw [boxTy, ofBytes, ← boxTy, hcheck 0]
    rfl
  | succ n ih =>
    rw [boxTy, ofBytes_aggregate rfl, ← boxTy, hcheck (n + 1)]
    simp [boxTy, Ty.memberTys, membersOfBytes_cons, byteSize_boxTy, cut, ih, boxed]
    rfl

/-- One byte that is loaded inside arrays is decided as the number inside arrays. Bytes are rebuilt
without a limit, so this is decided at any depth of arrays. -/
theorem concretize_boxTy (n : Nat) :
    (standard .standard).concretize (.concat [twoByte] (boxTy (n + 1))) = .ok (boxed (n + 1)) := by
  have hbuild : (standard .standard).valueOfBytesBy
      ((standard .standard).concretizeWithin depthLimit) [twoByte] (boxTy (n + 1)) =
      (standard .standard).ofBytes (boxTy (n + 1)) [2] := by
    have hsize : (standard .standard).target.byteSize (boxTy (n + 1)) = 1 := byteSize_boxTy (n + 1)
    simp only [valueOfBytesBy, hsize]
    rfl
  have hintact : (standard .standard).intactParent? [twoByte] (boxTy (n + 1)) = none :=
    if_neg fun h => by cases h.2.1
  rw [concretize_concat (supported_boxTy (n + 1)) hintact, hbuild, ofBytes_boxTy]

/-- A byte that is read alone, at another type than its own, is a fault if its parent is. -/
theorem decode_bind_eq_error {b : SymByte} (hty : b.ty ≠ .int 8) {fault : Fault}
    (h : (standard .standard).concretizeWithin depthLimit b.parent = .error fault) :
    (standard .standard).decode [b] (.int 8) >>= (standard .standard).concretize =
      .error fault := by
  have hintact : (standard .standard).intactParent? [b] (.int 8) = none :=
    if_neg fun hwhole => hty hwhole.2.1
  have hclass : gather ((standard .standard).resolveClass
      ((standard .standard).concretizeWithin depthLimit)) (itemClasses SymByte.entangled [b]) =
      .error fault := by
    change gather _ [(⟨(b, 0), []⟩ : ItemClass SymByte)] = _
    simp only [gather, resolveClass, h, Outcome.error_bind]
  rw [decode_eq_concat (by decide) (by decide) hintact, Outcome.ok_bind]
  refine (concretize_concat (by decide) hintact).trans ?_
  rw [valueOfBytesBy, hclass]
  rfl

/-- A number that is stored inside arrays is not decided inside bytes, if those are too many. Its
own byte cannot be read, though nothing in it is undecided. -/
theorem read_boxed {n : Nat} (h : depthLimit ≤ n + 1) {ids ids' : StoreIds} {out : List SymByte}
    (hout : (standard .standard).encode (boxed (n + 1)).toSym (boxTy (n + 1)) ids =
      (.ok out, ids')) :
    (standard .standard).decode out (.int 8) >>= (standard .standard).concretize =
      .error .tooDeep := by
  have hfits : (boxed (n + 1)).ScalarsIn Target.standard.Fits :=
    fits_ofBytes rfl (by decide) (ofBytes_boxTy (standard .standard) (n + 1))
  have hdeep : (standard .standard).concretizeWithin depthLimit (boxed (n + 1)).toSym =
      .error .tooDeep :=
    concretizeWithin_toSym_of_height_le (fun s hs => Target.canonical_of_fits (hfits s hs))
      (by rwa [height_boxed])
  have hsize : (standard .standard).target.byteSize (boxTy (n + 1)) = 1 := byteSize_boxTy (n + 1)
  obtain ⟨rfl, -⟩ := encode_eq_ok_of_plain (Value.toSym_ne_concat _) hout
  rw [hsize]
  exact decode_bind_eq_error (b := ⟨(boxed (n + 1)).toSym, _, boxTy (n + 1), _, _⟩)
    (fun hty => by cases hty) hdeep

/-- A number of which only the lowest bit is loaded is still there if the load is stored as it is,
and is lost if the load is decided before. And a load that is too deep to be decided inside bytes is
not decided there once it was decided before. -/
theorem deferred_loads_differ :
    twoByte.SharedIn (fun _ => twoByte.parent) ∧ (standard .standard).Emitted twoByte ∧
    ((standard .standard).concretize (.concat [twoByte] .bit) = .ok (.bit false) ∧
      ∃ lazy rest eager rest',
        (standard .standard).encode (.concat [twoByte] .bit) .bit .all = (.ok lazy, rest) ∧
        (standard .standard).encode (Value.bit false).toSym .bit .all = (.ok eager, rest') ∧
        (standard .standard).decode lazy (.int 8) >>= (standard .standard).concretize =
          .ok (.int ⟨.i8, 2⟩) ∧
        (standard .standard).decode eager (.int 8) >>= (standard .standard).concretize =
          .ok (.int ⟨.i8, 0⟩)) ∧
    ((standard .standard).concretize (.concat [twoByte] (boxTy 512)) = .ok (boxed 512) ∧
      ∃ eager rest',
        (standard .standard).encode (boxed 512).toSym (boxTy 512) .all = (.ok eager, rest') ∧
        (standard .standard).decode eager (.int 8) >>= (standard .standard).concretize =
          .error .tooDeep) := by
  have hemitted : (standard .standard).StandsFor twoByte.parent twoByte.ty (.int ⟨.i8, 2⟩) :=
    .of_int rfl (by simp [twoByte]) rfl rfl (by decide)
  refine ⟨by simp [SymByte.sharedIn_iff, twoByte, SymValue.SharedIn, SymValue.SharedByte],
    ⟨_, 0, hemitted.toDenotes, rfl, by decide⟩, ⟨rfl, _, _, _, _, rfl, rfl, rfl, rfl⟩,
    concretize_boxTy 511, ?_⟩
  obtain ⟨eager, rest', heager⟩ : ∃ out ids', (standard .standard).encode (boxed 512).toSym
      (boxTy 512) .all = (.ok out, ids') :=
    exists_encode_toSym _ (hasTy_ofBytes (ofBytes_boxTy (standard .standard) 512))
      (supported_boxTy 512) (Nat.le_of_eq (height_boxed 512)) (by decide)
  exact ⟨eager, rest', heager, read_boxed (Nat.le_refl _) heager⟩

/-! ## Numbers and truth values -/

/-- The parents of `crossedBytes`. -/
def crossedHeap : ParentRef → SymValue
  | .given 0 => .scalar (.int ⟨.i32, 0x04030201⟩)
  | .given 1 => .undef (.int 8)
  | .given 2 => .scalar (.int ⟨.i32, 0x08070605⟩)
  | _ => .void

/-- Two truth values and two numbers, in as many bytes as `crossedBytes`. -/
def flaggedNumbersTy : Ty := .record .packed [.bit, .int 8, .bit, .int 8]

/-- What `crossedBytes` are decided as, of which the third is cut down. -/
def flaggedNumbers : Value :=
  .aggregate (.record .packed) [.bit true, .int ⟨.i8, 0⟩, .bit true, .int ⟨.i8, 4⟩]

/-- Bytes of three stores, stored as they were loaded and as what they are decided as, give the same
two numbers: the first byte is loaded as a single bit and again as more, and it is one. -/
theorem exists_concretize_deferred_crossedBytes :
    (∀ b ∈ crossedBytes, b.SharedIn crossedHeap) ∧
    (∀ b ∈ crossedBytes, (standard .standard).Emitted b) ∧
    (standard .standard).concretize (.concat crossedBytes flaggedNumbersTy) =
      .ok flaggedNumbers ∧
    ∃ lazy rest eager rest',
      (standard .standard).encode (.concat crossedBytes flaggedNumbersTy) flaggedNumbersTy
        (.above 9) = (.ok lazy, rest) ∧
      (standard .standard).encode flaggedNumbers.toSym flaggedNumbersTy .all =
        (.ok eager, rest') ∧
      ∃ v x w y,
        (standard .standard).decode ((lazy.drop 0).take 2) (.vector 2 (.int 8)) = .ok v ∧
        (standard .standard).concretize v = .ok x ∧
        (standard .standard).decode ((eager.drop 0).take 2) (.vector 2 (.int 8)) = .ok w ∧
        (standard .standard).concretize w = .ok y ∧ x.withWildcards = y.withWildcards := by
  have hshared : ∀ b ∈ crossedBytes, b.SharedIn crossedHeap := by
    simp [crossedBytes, SymByte.sharedIn_iff, crossedHeap, SymValue.SharedIn, SymValue.SharedByte]
  have hemitted : ∀ b ∈ crossedBytes, (standard .standard).Emitted b := by
    have hnumber : ∀ bits : BitVec 32, (standard .standard).StandsFor
        (.scalar (.int ⟨.i32, bits⟩)) (.int 32) (.int ⟨.i32, bits⟩) := fun bits =>
      .of_int rfl (by simp) rfl rfl (by decide)
    have hzero : (standard .standard).StandsFor (.undef (.int 8)) (.int 8) (.int ⟨.i8, 0⟩) :=
      .of_int rfl (by simp) rfl rfl (by decide)
    simp only [crossedBytes, List.forall_mem_cons]
    exact ⟨⟨_, 0, (hnumber _).toDenotes, rfl, by decide⟩, ⟨_, 0, hzero.toDenotes, rfl, by decide⟩,
      ⟨_, 2, (hnumber _).toDenotes, rfl, by decide⟩, ⟨_, 3, (hnumber _).toDenotes, rfl, by decide⟩,
      by simp⟩
  have hd : (standard .standard).concretize (.concat crossedBytes flaggedNumbersTy) =
      .ok flaggedNumbers := by rfl
  refine ⟨hshared, hemitted, hd, ?_⟩
  have hids : (StoreIds.above 9).next + (distinctIds crossedBytes).length ≤ StoreIds.last := by
    decide
  have hids' : StoreIds.all.next < StoreIds.last := by decide
  obtain ⟨lazy, rest, eager, rest', hlazy, heager, hloads⟩ := exists_concretize_deferred
    (by decide) (by decide) (by decide) hshared hemitted hd (by decide) hids hids'
  refine ⟨lazy, rest, eager, rest', hlazy, heager, ?_⟩
  cases hlazy.symm.trans (show _ = (Except.ok _, _) from rfl)
  obtain ⟨v, x, w, y, hv, hx, hw, hy, hsame⟩ := hloads 0 2 (.vector 2 (.int 8)) (by decide) rfl
  refine ⟨v, x, w, y, hv, hx, hw, hy, hsame ?_⟩
  exact .cons (fun _ => ⟨1, rfl, .inr rfl⟩) (.cons (fun h => by cases h) .nil)

end Machine

end SymbolicBytes
