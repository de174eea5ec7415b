import SymbolicBytes.Proofs.IntactStore
import SymbolicBytes.Proofs.Resolution
import SymbolicBytes.Proofs.ScalarInvariants
import SymbolicBytes.Proofs.Tagging
/-!
# Loading bytes that stand for numbers

A symbolic byte carries a number if its parent is decided as a value that has this number at the
position of the byte (`Machine.Carries`). A load of bytes that all carry numbers is decided as the
value that these numbers spell (`exists_concretize_decode_of_carries`), whether the bytes are one
whole store or come from many.

`Machine.Backed` asks besides that the parent is not made of loaded bytes, as of no byte that a
store makes. The bytes of a stored value stand for the bytes of what the value is decided as
(`backed_run`).
-/

namespace SymbolicBytes.Machine

variable {machine : Machine} {target : Target}

/-! ## Bytes that stand for numbers -/

/-- Whether a symbolic value at a type, of whatever it is made, is decided as a concrete one that
can be told from its bytes. Bytes are resolved one level below the value that they belong to, so the
parent of a byte has to be decided there as well. -/
structure Denotes (machine : Machine) (v : SymValue) (ty : Ty) (d : Value) : Prop where
  /-- the value is decided -/
  whole : machine.concretize v = .ok d
  /-- the value is decided inside bytes -/
  inside : machine.concretizeWithin depthLimit v = .ok d
  /-- what is decided has the type -/
  hasTy : d.HasTy ty
  /-- nothing of it is poison -/
  poisonFree : d.PoisonFree
  /-- its addresses fit into a pointer -/
  addresses : d.ScalarsIn fun s =>
    ∀ a, s = .address a → a.bits.toNat < 2 ^ machine.target.pointerBits
  /-- its positions fit into a pointer -/
  size : machine.target.byteSize ty ≤ 2 ^ machine.target.pointerBits

/-- Whether a symbolic value that is stored at a type stands for a concrete one: it denotes it, and
storing it makes a store of its own and does not tag bytes that were loaded. -/
structure StandsFor (machine : Machine) (v : SymValue) (ty : Ty) (d : Value) : Prop
    extends Denotes machine v ty d where
  /-- the value is not made of loaded bytes -/
  plain : ∀ bytes u, v ≠ .concat bytes u

/-- A value that is decided as an integer stands for it. Only the size has to be asked for: an
integer is whole as soon as it is decided, and holds no address. -/
theorem StandsFor.of_int {v : SymValue} {i : FixedInt} {ty : Ty} (hty : ty = .int i.width.bits)
    (hplain : ∀ bytes u, v ≠ .concat bytes u) (hwhole : machine.concretize v = .ok (.int i))
    (hinside : machine.concretizeWithin depthLimit v = .ok (.int i))
    (hsize : machine.target.byteSize ty ≤ 2 ^ machine.target.pointerBits) :
    machine.StandsFor v ty (.int i) where
  plain := hplain
  whole := hwhole
  inside := hinside
  hasTy := hty ▸ .scalar _
  poisonFree := Value.poisonFree_scalar _
  addresses := Value.scalarsIn_scalar.2 fun _ h => nomatch h
  size := hsize

/-- Whether a symbolic byte carries a number: it is at its position in what its parent is decided
as. -/
def Carries (machine : Machine) (b : SymByte) (x : UInt8) : Prop :=
  ∃ d i, machine.Denotes b.parent b.ty d ∧ b.literalIndex? = some i ∧
    i < machine.target.byteSize b.ty ∧ (machine.image d)[i]? = some (some x)

/-- Whether a symbolic byte stands for a number: it carries it, and belongs to a value that is not
made of loaded bytes itself, as all bytes do that a store makes. -/
structure Backed (machine : Machine) (b : SymByte) (x : UInt8) : Prop where
  /-- the byte carries the number -/
  carries : machine.Carries b x
  /-- its parent is not made of loaded bytes -/
  plain : ∀ bytes u, b.parent ≠ .concat bytes u

/-- The bytes that a value of a type takes up, least significant first. -/
def storedBytes (machine : Machine) (d : Value) (ty : Ty) : List UInt8 :=
  ((machine.image d).take (machine.target.byteSize ty)).map (Option.getD · 0)

/-- A scalar has no padding, so all of its bytes are stored, each read off its own representation.
-/
theorem storedBytes_scalar (s : Scalar) : machine.storedBytes (.scalar s) s.ty =
    (List.range (machine.target.byteSize s.ty)).map (machine.scalarByte s) := by
  rw [storedBytes, image_scalar, List.take_of_length_le (by simp), List.map_map]
  rfl

/-- The bytes of a stored value stand for the bytes of what it is decided as. This is where a store
enters a memory that stands for plain bytes: each new byte has the stored value as its parent, and
an index that was never computed with. -/
theorem backed_run {v : SymValue} {ty : Ty} {d : Value} (h : machine.StandsFor v ty d)
    (ref : ParentRef) (id : Nat) :
    List.Forall₂ machine.Backed (SymByte.run v ref ty id (machine.target.byteSize ty))
      (machine.storedBytes d ty) := by
  obtain ⟨xs, hxs⟩ : ∃ xs : List UInt8, machine.image d = xs.map some :=
    exists_image_eq_map_some h.poisonFree.noPoisonBytes
  have hstored : machine.storedBytes d ty = xs.take (machine.target.byteSize ty) := by
    simp [storedBytes, hxs, Function.comp_def]
  have hlen : machine.target.byteSize ty ≤ xs.length := by
    rw [← List.length_map some, ← hxs, length_image h.hasTy]
    exact machine.target.byteSize_le_exactSize ty
  rw [hstored]
  refine List.forall₂_iff_get.2 ⟨by simp [hlen], ?_⟩
  intro i hi hi'
  rw [SymByte.length_run] at hi
  have hi64 : i < UInt64.size := Nat.lt_trans hi (machine.target.byteSize_lt ty)
  have himage : (machine.image d)[i]? = some (some xs[i]) := by
    rw [hxs, List.getElem?_map, List.getElem?_eq_getElem (by omega), Option.map_some]
  simp only [List.get_eq_getElem, List.getElem_take, SymByte.run, List.getElem_map,
    List.getElem_range]
  exact ⟨⟨d, i, h.toDenotes, literalIndex?_iptr rfl hi64, hi, himage⟩, h.plain⟩

/-- A byte that carries a number is resolved as that number, without the other bytes of its load.
The position has to fit into a pointer for this, as an index is read at the width of one. -/
theorem Carries.resolveAlone {b : SymByte} {x : UInt8} (h : machine.Carries b x) :
    machine.resolveAlone (machine.concretizeWithin depthLimit) b = .ok (some x) := by
  obtain ⟨d, i, hd, hindex, hi, himage⟩ := h
  obtain ⟨y, hy, hread⟩ : ∃ y, (machine.image d)[i]? = some y ∧
      machine.resolveByte (machine.concretizeWithin depthLimit) d b = .ok y :=
    resolveByte_eq_image hd.hasTy hindex hi hd.size
  obtain rfl : y = some x := Option.some.inj (hy.symm.trans himage)
  simp only [Machine.resolveAlone, hd.inside, Outcome.ok_bind, hd.poisonFree.isPoison_eq_false,
    Bool.false_eq_true, if_false]
  exact hread

/-- The scalars of a decided value fit their bytes, which is what it takes to rebuild them. That an
integer is in range follows from being decided; an address may have more bits than a pointer has,
which is why `Denotes` asks for these. -/
theorem Denotes.fits {v : SymValue} {ty : Ty} {d : Value} (hp : target.pointerSize ≤ 8)
    (h : (standard target).Denotes v ty d) : d.ScalarsIn target.Fits := fun s hs =>
  Target.fits_of_canonical (canonical_concretizeWithin (by omega) h.whole s hs) (h.addresses s hs)

/-! ## Loading -/

/-- Bytes that are not one whole store are decided byte by byte, one level further down, however few
of them are missing. -/
theorem concretize_concat {bytes : List SymByte} {ty : Ty} (hty : ty.Supported)
    (h : machine.intactParent? bytes ty = none) :
    machine.concretize (.concat bytes ty) =
      machine.valueOfBytesBy (machine.concretizeWithin depthLimit) bytes ty := by
  have hcheck := (Ty.checkSupported_eq_ok_iff ty).2 hty
  simp only [concretize, concretizeWithin, concretizeBy, hcheck, h, Outcome.ok_bind]

/-- Loaded bytes are decided only at a type with values, and if they are as many as it has. Both
ways of deciding them check the number, so neither may be taken to get around it. -/
theorem of_concretize_concat_eq_ok {bytes : List SymByte} {ty : Ty} {d : Value}
    (h : machine.concretize (.concat bytes ty) = .ok d) :
    ty.Supported ∧ bytes.length = machine.target.byteSize ty := by
  obtain ⟨hty, ⟨_, hintact, -⟩ | ⟨-, hvalue⟩⟩ := concretizeBy_concat_inv h
  · obtain ⟨_, _, -, -, hlen, -⟩ := of_intactParent?_eq_some hintact
    exact ⟨hty, hlen⟩
  · exact ⟨hty, (valueOfBytesBy_inv hvalue).1⟩

/-- What is loaded is the value without bytes, the parent of loaded bytes, or made of all of them. A
load invents nothing, so whatever holds of all parents and all bytes holds of what is loaded. -/
theorem of_decode_eq_ok {bytes : List SymByte} {ty : Ty} {v : SymValue}
    (h : machine.decode bytes ty = .ok v) :
    v = .void ∨ (∃ b ∈ bytes, v = b.parent) ∨ v = .concat (machine.target.arrange bytes) ty := by
  simp only [decode, Outcome.bind_eq_ok] at h
  obtain ⟨_, -, h⟩ := h
  split at h
  · split at h <;> cases h
    exact .inl rfl
  · split at h
    · rename_i parent hintact
      obtain ⟨first, rest, hcons, rfl, -⟩ := of_intactParent?_eq_some hintact
      have hfirst : first ∈ machine.target.arrange bytes := hcons ▸ List.mem_cons_self ..
      exact .inr (.inl ⟨first, Target.mem_arrange.1 hfirst, (Except.ok.inj h).symm⟩)
    · exact .inr (.inr (Except.ok.inj h).symm)

/-- Where no parent is made of loaded bytes, a load that is has the bytes that were loaded. A parent
that is made of bytes could come out in their place, with bytes that are nowhere in memory. -/
theorem of_decode_eq_concat {bytes out : List SymByte} {ty u : Ty}
    (hplain : ∀ b ∈ bytes, ∀ loaded t, b.parent ≠ .concat loaded t)
    (h : machine.decode bytes ty = .ok (.concat out u)) : out = machine.target.arrange bytes := by
  rcases of_decode_eq_ok h with hvoid | ⟨b, hb, hparent⟩ | hconcat
  · cases hvoid
  · exact absurd hparent.symm (hplain b hb out u)
  · cases hconcat
    rfl

section Load

variable {bytes : List SymByte} {raw : List UInt8} {ty : Ty}

/-- If the parents of all bytes are decided as one value, and the bytes carry numbers in order, then
those are the image of the value. Each byte may know of its own decided parent; that the parents
agree makes these one. -/
theorem image_eq_of_carries (hbytes : List.Forall₂ machine.Carries bytes raw) {d : Value}
    (hall : ∀ (b : SymByte) i, bytes[i]? = some b →
      machine.concretize b.parent = .ok d ∧ b.literalIndex? = some i)
    (hlen : (machine.image d).length = bytes.length) :
    machine.image d = raw.map some := by
  apply List.ext_getElem?
  intro i
  by_cases hi : i < bytes.length
  · have hb := List.getElem?_eq_getElem hi
    have hx := List.getElem?_eq_getElem (hbytes.length_eq ▸ hi)
    obtain ⟨d', j, hd', hindex, -, hj⟩ := getElem?_of_forall₂ hbytes hb hx
    obtain ⟨hparent, hindex'⟩ := hall _ i hb
    obtain rfl : j = i := Option.some.inj (hindex.symm.trans hindex')
    obtain rfl : d' = d := Except.ok.inj (hd'.whole.symm.trans hparent)
    rw [hj, List.getElem?_map, hx]
    rfl
  · -- past the end there is neither a part of the value nor a number
    rw [List.getElem?_eq_none (by omega), List.getElem?_eq_none]
    rw [List.length_map, ← hbytes.length_eq]
    omega

/-- Whether the parents of entangled bytes among these are decided alike, at every depth. -/
def DecidedAlike (machine : Machine) (bytes : List SymByte) : Prop :=
  ∀ a ∈ bytes, ∀ b ∈ bytes, a.entangled b = true → ∀ levels,
    machine.concretizeWithin levels a.parent = machine.concretizeWithin levels b.parent

/-- Fewer bytes have fewer parents, as in the other order of bytes or in a part of memory. -/
theorem DecidedAlike.mono {new : List SymByte} (h : machine.DecidedAlike bytes)
    (hnew : new ⊆ bytes) : machine.DecidedAlike new :=
  fun a ha b hb => h a (hnew ha) b (hnew hb)

/-- Where an id stands for one parent there is nothing to compare. This is so of the bytes of any
run, whose ids come from one supply. -/
theorem DecidedAlike.of_owned
    (h : ∀ a ∈ bytes, ∀ b ∈ bytes, a.storeId = b.storeId → a.parent = b.parent) :
    machine.DecidedAlike bytes := by
  intro a ha b hb hab levels
  rw [h a ha b hb (SymByte.entangled_iff.1 hab).1]

/-- The parent of a whole store is decided, also inside bytes, as the value that the numbers of the
store spell. The shortcut that gives the parent in place of its bytes is therefore no shortcut to
another value. -/
theorem exists_concretize_of_intactParent (hp : target.pointerSize ≤ 8)
    (hbytes : List.Forall₂ (standard target).Carries bytes raw)
    (halike : (standard target).DecidedAlike bytes)
    (hty : ty.Supported) (hlt : bytes.length < maxSize) {parent : SymValue}
    (hintact : (standard target).intactParent? bytes ty = some parent) :
    ∃ d, (standard target).concretize parent = .ok d ∧
      (standard target).concretizeWithin depthLimit parent = .ok d ∧
      (standard target).ofBytes ty raw = .ok d.withWildcards := by
  obtain ⟨first, rest, hcons, rfl, hlen, hall⟩ := of_intactParent?_eq_some hintact
  have hfirst : bytes[0]? = some first := by rw [hcons]; rfl
  obtain ⟨x, -, d, -, hd, -⟩ :=
    exists_mem_of_forall₂ hbytes (List.mem_of_getElem? hfirst)
  rw [(hall first 0 hfirst).2.1] at hd
  have hexact : target.exactSize ty ≤ maxSize :=
    target.exactSize_le_of_byteSize_lt (show target.byteSize ty < maxSize from hlen ▸ hlt)
  -- the parents of all bytes are decided alike, so one value has all the numbers
  have hparents : ∀ (b : SymByte) i, bytes[i]? = some b →
      (standard target).concretize b.parent = .ok d ∧ b.literalIndex? = some i := by
    intro b i hb
    obtain ⟨hentangled, -, hindex⟩ := hall b i hb
    have hsame := halike first (List.mem_of_getElem? hfirst) b (List.mem_of_getElem? hb)
      hentangled (depthLimit + 1)
    exact ⟨hsame.symm.trans hd.whole, hindex⟩
  have himage : (standard target).image d = raw.map some := by
    apply image_eq_of_carries hbytes hparents
    rw [length_image hd.hasTy, hlen]
    exact (target.byteSize_eq_exactSize hexact).symm
  exact ⟨d, hd.whole, hd.inside,
    ofBytes_image rfl hp hd.hasTy hty hexact (hd.fits hp) hd.poisonFree himage⟩

/-- Bytes of any stores are decided as the value that their numbers spell. Bytes that are entangled
are resolved together and others apart, which makes no difference here, as each of them carries its
number alone. -/
theorem exists_valueOfBytesBy (hbytes : List.Forall₂ (standard target).Carries bytes raw)
    (halike : (standard target).DecidedAlike bytes)
    (hty : ty.Supported) (hlt : bytes.length < maxSize)
    (hlen : bytes.length = target.byteSize ty) :
    ∃ d, (standard target).valueOfBytesBy ((standard target).concretizeWithin depthLimit) bytes ty =
        .ok d ∧ (standard target).ofBytes ty raw = .ok d := by
  have hresolved : ∀ b ∈ bytes, ∃ x,
      (standard target).resolveAlone ((standard target).concretizeWithin depthLimit) b =
        .ok (some x) := by
    intro b hb
    obtain ⟨x, -, hx⟩ := exists_mem_of_forall₂ hbytes hb
    exact ⟨x, hx.resolveAlone⟩
  obtain ⟨resolved, values, hgather, hassemble, hvalues⟩ :=
    exists_assemble_of_resolveAlone hresolved
  -- a byte is resolved as the number that it carries, and as no other
  have hsame : List.Forall₂ Eq values raw := by
    apply forall₂_of_common hvalues hbytes
    intro b x y hx hy
    exact Option.some.inj (Except.ok.inj (hx.symm.trans hy.resolveAlone))
  obtain rfl : values = raw := List.forall₂_eq_eq_eq ▸ hsame
  have hexact : target.exactSize ty ≤ maxSize := target.exactSize_le_of_byteSize_lt (hlen ▸ hlt)
  have hcount : values.length = target.exactSize ty := by
    rw [← hbytes.length_eq, hlen, target.byteSize_eq_exactSize hexact]
  obtain ⟨d, hd⟩ : ∃ d, (standard target).ofBytes ty values = .ok d :=
    exists_ofBytes_eq_ok rfl hty hexact hcount
  refine ⟨d, ?_, hd⟩
  rw [valueOfBytesBy_eq hlen fun a ha b hb hab => halike a ha b hb hab depthLimit, hgather]
  simp only [Outcome.ok_bind, hassemble, hd]

/-- Loaded bytes that all carry numbers are decided as the value that these numbers spell, up to the
provenance of its addresses, which plain bytes do not have. No list has as many bytes as the largest
size, at which sizes are no longer exact. -/
theorem exists_concretize_concat (hp : target.pointerSize ≤ 8)
    (hbytes : List.Forall₂ (standard target).Carries bytes raw)
    (halike : (standard target).DecidedAlike bytes)
    (hty : ty.Supported) (hlt : bytes.length < maxSize)
    (hlen : bytes.length = target.byteSize ty) :
    ∃ d, (standard target).concretize (.concat bytes ty) = .ok d ∧
      (standard target).ofBytes ty raw = .ok d.withWildcards := by
  have hcheck := (Ty.checkSupported_eq_ok_iff ty).2 hty
  cases hintact : (standard target).intactParent? bytes ty with
  | some parent =>
    obtain ⟨d, -, hd, hbuild⟩ := exists_concretize_of_intactParent hp hbytes halike hty hlt hintact
    refine ⟨d, ?_, hbuild⟩
    simp only [concretize, concretizeWithin, concretizeBy, hcheck, hintact, Outcome.ok_bind]
    exact hd
  | none =>
    obtain ⟨d, hd, hbuild⟩ := exists_valueOfBytesBy hbytes halike hty hlt hlen
    refine ⟨d, (concretize_concat hty hintact).trans hd, ?_⟩
    rw [hbuild, withWildcards_ofBytes rfl hbuild]

/-- A load of bytes that all carry numbers is decided as the value that these numbers spell, up to
the provenance of its addresses. Nothing is asked about where the bytes come from: they may be one
store, parts of several or the same byte twice, and their parents may be made of loaded bytes. -/
theorem exists_concretize_decode_of_carries (hp : target.pointerSize ≤ 8)
    (hbytes : List.Forall₂ (standard target).Carries bytes raw)
    (halike : (standard target).DecidedAlike bytes)
    (hty : ty.Supported) (hlt : bytes.length < maxSize)
    (hlen : bytes.length = target.byteSize ty) :
    ∃ v d, (standard target).decode bytes ty = .ok v ∧ (standard target).concretize v = .ok d ∧
      (standard target).ofBytes ty (target.arrange raw) = .ok d.withWildcards := by
  have harranged : List.Forall₂ (standard target).Carries (target.arrange bytes)
      (target.arrange raw) := Target.forall₂_arrange.2 hbytes
  have halike' : (standard target).DecidedAlike (target.arrange bytes) :=
    halike.mono fun _ hb => Target.mem_arrange.1 hb
  by_cases hvoid : ty = .void
  · -- nothing is loaded, and nothing spelled
    subst hvoid
    have hnil : bytes = [] := List.eq_nil_of_length_eq_zero hlen
    subst hnil
    obtain rfl := List.forall₂_nil_left_iff.1 hbytes
    refine ⟨.void, .void, rfl, rfl, ?_⟩
    rw [Target.arrange_nil]
    rfl
  · cases hintact : (standard target).intactParent? (target.arrange bytes) ty with
    | some parent =>
      obtain ⟨d, hd, -, hbuild⟩ := exists_concretize_of_intactParent hp harranged halike' hty
        (by simpa using hlt) hintact
      exact ⟨parent, d, decode_eq_of_intactParent? hty hvoid hintact, hd, hbuild⟩
    | none =>
      obtain ⟨d, hd, hbuild⟩ := exists_concretize_concat hp harranged halike' hty
        (by simpa using hlt) (by simpa using hlen)
      exact ⟨_, d, decode_eq_concat hty hvoid hintact, hd, hbuild⟩

/-- A load of bytes that all stand for numbers is decided as the value that these numbers spell, up
to the provenance of its addresses, where bytes under one id have one parent. These are the terms in
which the invariant of a memory speaks. -/
theorem exists_concretize_decode (hp : target.pointerSize ≤ 8)
    (hbacked : List.Forall₂ (standard target).Backed bytes raw)
    (howned : ∀ a ∈ bytes, ∀ b ∈ bytes, a.storeId = b.storeId → a.parent = b.parent)
    (hty : ty.Supported) (hlt : bytes.length < maxSize)
    (hlen : bytes.length = target.byteSize ty) :
    ∃ v d, (standard target).decode bytes ty = .ok v ∧ (standard target).concretize v = .ok d ∧
      (standard target).ofBytes ty (target.arrange raw) = .ok d.withWildcards :=
  exists_concretize_decode_of_carries hp (hbacked.imp fun _ _ => Backed.carries)
    (.of_owned howned) hty hlt hlen

/-- As many bytes as the type does not have are no value of it, whether symbolic or numbers. The two
fail at different points, the load perhaps only when it is decided, so their faults may differ. -/
theorem exists_error_of_length_ne (hlen : bytes.length ≠ machine.target.byteSize ty)
    (hraw : raw.length = bytes.length) (hty : ty.Supported) :
    ∃ fault fault', machine.decode bytes ty >>= machine.concretize = .error fault ∧
      machine.ofBytes ty (machine.target.arrange raw) = .error fault' := by
  have hcheck := (Ty.checkSupported_eq_ok_iff ty).2 hty
  -- plain bytes are counted before anything else
  have hbuild : machine.ofBytes ty (machine.target.arrange raw) =
      .error (.byteCount raw.length ty (machine.target.byteSize ty)) := by
    have hcount : machine.checkBytes ty raw.length =
        .error (.byteCount raw.length ty (machine.target.byteSize ty)) := by
      simp only [checkBytes, hcheck, Outcome.ok_bind, hraw, hlen, if_false]
    unfold ofBytes
    rw [Target.length_arrange, hcount]
    rfl
  by_cases hvoid : ty = .void
  · subst hvoid
    have hne : bytes ≠ [] := fun hnil => hlen (by rw [hnil]; rfl)
    refine ⟨.voidLoaded bytes.length, _, ?_, hbuild⟩
    simp only [decode, hcheck, hne, Outcome.ok_bind, if_true, if_false]
    rfl
  · have hintact : machine.intactParent? (machine.target.arrange bytes) ty = none := by
      apply Option.eq_none_iff_forall_not_mem.2
      intro parent hparent
      obtain ⟨_, _, -, -, hsize, -⟩ := of_intactParent?_eq_some hparent
      exact hlen (by simpa using hsize)
    -- so a load passes the bytes on, and they are counted when they are decided
    refine ⟨.byteCount bytes.length ty (machine.target.byteSize ty), _, ?_, hbuild⟩
    rw [decode_eq_concat hty hvoid hintact, Outcome.ok_bind, concretize_concat hty hintact,
      valueOfBytesBy_of_length_ne (by simpa using hlen), Target.length_arrange]

end Load

end SymbolicBytes.Machine
