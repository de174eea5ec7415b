import SymbolicBytes.Proofs.Loading
/-!
# Loading what was stored

Bytes that a store made and that are loaded whole, at the type that they were stored at, give back
what was stored (`reloads_encode`). A value that is not made of loaded bytes comes back as it was,
however deep it is: its bytes refer to it and are known to be one store by their reference. Loaded
bytes come back under new ids, unless they are one whole store already, which tagging anew neither
makes nor breaks (`intactParent?_renamed`). Of a type without bytes nothing comes back but its zero
value.
-/

namespace SymbolicBytes

/-- The byte under another id. -/
def SymByte.renamed (rename : Nat → Nat) (b : SymByte) : SymByte :=
  { b with storeId := rename b.storeId }

namespace SymByte

variable (rename : Nat → Nat) (b : SymByte)

@[simp] theorem parent_renamed : (b.renamed rename).parent = b.parent := rfl

@[simp] theorem ty_renamed : (b.renamed rename).ty = b.ty := rfl

/-- Bytes under other ids are entangled if they were, as long as different ids stay different. -/
theorem entangled_renamed {rename : Nat → Nat} {a b : SymByte}
    (hrename : rename a.storeId = rename b.storeId → a.storeId = b.storeId) :
    (a.renamed rename).entangled (b.renamed rename) = a.entangled b := by
  have hid : (rename a.storeId == rename b.storeId) = (a.storeId == b.storeId) := by
    rw [Bool.eq_iff_iff, beq_iff_eq, beq_iff_eq]
    exact ⟨hrename, congrArg rename⟩
  exact congrArg (· && a.sameParentWithin (depthLimit + 1) b) hid

end SymByte

namespace Machine

variable {machine : Machine} {v : SymValue} {ty : Ty} {ids ids' : StoreIds} {bytes : List SymByte}

/-! ## Whole stores -/

/-- Bytes are one whole store if there are as many as the type has and each of them is entangled
with the first, was stored at the type, and stands at its position. -/
theorem intactParent?_eq_some {first : SymByte} {rest : List SymByte}
    (hlen : (first :: rest).length = machine.target.byteSize ty)
    (hall : ∀ (b : SymByte) i, (first :: rest)[i]? = some b →
      b.entangled first = true ∧ b.ty = ty ∧ b.literalIndex? = some i) :
    machine.intactParent? (first :: rest) ty = some first.parent := by
  have hfirst : first.ty = ty := (hall first 0 rfl).2.1
  have hbytes : ((first :: rest).zipIdx.all fun x =>
      x.1.entangled first && x.1.ty == first.ty && x.1.literalIndex? == some x.2) = true := by
    rw [List.all_eq_true]
    rintro ⟨b, i⟩ hmem
    obtain ⟨hentangled, hty, hindex⟩ := hall b i (List.mk_mem_zipIdx_iff_getElem?.1 hmem)
    simp only [hentangled, hty, hfirst, hindex, beq_self_eq_true, Bool.and_self]
  exact if_pos ⟨hlen, hfirst, hbytes⟩

/-- The byte at a position of a stored value. -/
theorem getElem?_run {ref : ParentRef} {id size i : Nat} {b : SymByte}
    (h : (SymByte.run v ref ty id size)[i]? = some b) :
    i < size ∧ b = ⟨v, ref, ty, .iptr i, id⟩ := by
  obtain ⟨hi, rfl⟩ := List.getElem?_eq_some_iff.1 h
  rw [SymByte.length_run] at hi
  refine ⟨hi, ?_⟩
  simp only [SymByte.run, List.getElem_map, List.getElem_range]

/-- The position of a byte of a stored value is written out. -/
theorem literalIndex?_run {ref : ParentRef} {id i : Nat} {b : SymByte}
    (h : (SymByte.run v ref ty id (machine.target.byteSize ty))[i]? = some b) :
    b.literalIndex? = some i := by
  obtain ⟨hi, rfl⟩ := getElem?_run h
  exact literalIndex?_iptr rfl (Nat.lt_trans hi (machine.target.byteSize_lt ty))

/-- The bytes of a stored value are one whole store of it. They are known by their reference, so not
even a value that is not equal to itself, for being too deep to compare, is missed. -/
theorem intactParent?_run (v : SymValue) (ref : ParentRef) (id : Nat)
    (hsize : 0 < machine.target.byteSize ty) :
    machine.intactParent? (SymByte.run v ref ty id (machine.target.byteSize ty)) ty = some v := by
  obtain ⟨first, rest, hcons⟩ : ∃ first rest,
      SymByte.run v ref ty id (machine.target.byteSize ty) = first :: rest := by
    apply List.exists_cons_of_length_pos
    rwa [SymByte.length_run]
  have hbyte : ∀ (b : SymByte) (i : Nat), (first :: rest)[i]? = some b →
      b = ⟨v, ref, ty, .iptr i, id⟩ ∧ b.literalIndex? = some i := by
    intro b i hb
    rw [← hcons] at hb
    exact ⟨(getElem?_run hb).2, literalIndex?_run hb⟩
  obtain rfl := (hbyte first 0 rfl).1
  rw [hcons]
  apply intactParent?_eq_some (by rw [← hcons, SymByte.length_run])
  intro b i hb
  obtain ⟨rfl, hindex⟩ := hbyte b i hb
  exact ⟨SymByte.entangled_iff.2 ⟨rfl, .inl rfl⟩, rfl, hindex⟩

/-- Bytes under other ids are one whole store exactly if they were before, as long as different ids
stay different. Tagging anew therefore neither makes a whole store nor breaks one. -/
theorem intactParent?_renamed (machine : Machine) (bytes : List SymByte) (ty : Ty)
    {rename : Nat → Nat} (hrename : ∀ a ∈ bytes, ∀ b ∈ bytes,
      rename a.storeId = rename b.storeId → a.storeId = b.storeId) :
    machine.intactParent? (bytes.map (SymByte.renamed rename)) ty =
      machine.intactParent? bytes ty := by
  cases bytes with
  | nil => rfl
  | cons first rest =>
    -- every byte passes the check against the first in both lists or in neither
    have hcheck : List.Forall₂
        (fun a b : SymByte => ∀ i : Nat,
          (a.entangled (first.renamed rename) && a.ty == first.ty && a.literalIndex? == some i) =
            (b.entangled first && b.ty == first.ty && b.literalIndex? == some i))
        ((first :: rest).map (SymByte.renamed rename)) (first :: rest) := by
      refine List.forall₂_map_left_iff.2 (List.forall₂_same.2 ?_)
      intro b hb i
      rw [SymByte.entangled_renamed (hrename b hb first (List.mem_cons_self ..))]
      rfl
    have hall := all_zipIdx_congr
      (f := fun x : SymByte × Nat => x.1.entangled (first.renamed rename) && x.1.ty == first.ty &&
        x.1.literalIndex? == some x.2)
      (g := fun x : SymByte × Nat => x.1.entangled first && x.1.ty == first.ty &&
        x.1.literalIndex? == some x.2)
      hcheck 0
    rw [List.map_cons] at hall
    simp only [intactParent?, List.map_cons, SymByte.ty_renamed, hall, List.length_cons,
      List.length_map, SymByte.parent_renamed]

/-! ## Types without bytes -/

/-- Every scalar has a byte, which is why a type without bytes has but one value besides poison. -/
theorem byteSize_scalar_pos {target : Target} (hp : 1 ≤ target.pointerSize) (s : Scalar) :
    0 < target.byteSize s.ty := by
  cases s with
  | int i =>
    have hbytes : 0 < i.width.bytes := by cases i.width <;> decide
    simpa only [Scalar.ty, Target.byteSize, IntWidth.ofNat?_bits, Option.map_some,
      Option.getD_some] using hbytes
  | address a => exact hp
  | iptr int => exact hp
  | float x => exact Nat.zero_lt_succ 3
  | double x => exact Nat.zero_lt_succ 7

theorem membersOfBytes_nil {ts : List Ty} {vs : List Value}
    (h : List.Forall₂ (fun v t => machine.target.byteSize t = 0 ∧ machine.ofBytes t [] = .ok v)
      vs ts) : machine.membersOfBytes ts [] = .ok vs := by
  induction h with
  | nil => rfl
  | cons hv _ ih =>
    obtain ⟨hsize, hv⟩ := hv
    simp only [membersOfBytes_cons, hsize, cut]
    simp [hv, ih]

/-- No bytes at all are the zero value of a type without bytes. Aggregates of such types are built
up from their members, down to those that have none. -/
theorem ofBytes_nil (hp : 1 ≤ machine.target.pointerSize) {t : Ty} (ht : t.Supported)
    (hsize : machine.target.byteSize t = 0) {d : Value}
    (hd : machine.addresses.zeroValue t = .ok d) : machine.ofBytes t [] = .ok d := by
  have hcheck : machine.checkBytes t ([] : List UInt8).length = .ok () :=
    checkBytes_eq_ok_iff.2 ⟨ht, hsize.symm⟩
  induction t using Ty.byMembers generalizing d with
  | atom t hatom =>
    rcases AddressSpace.zeroValue_atom hatom hd with ⟨rfl, rfl⟩ | ⟨s, rfl, rfl⟩
    · rfl
    · -- every scalar has bytes
      have hpos := byteSize_scalar_pos hp s
      omega
  | aggregate t kind hkind ih =>
    obtain ⟨vs, rfl, hvs⟩ := AddressSpace.zeroValue_aggregate hkind hd
    have hmembers : List.Forall₂
        (fun v m => machine.target.byteSize m = 0 ∧ machine.ofBytes m [] = .ok v)
        vs t.memberTys := by
      apply forall₂_of_mem hvs
      intro v _ m hm hv
      have hexact := machine.target.exactSize_le_of_mem hm
      have hmsize : machine.target.byteSize m = 0 := by
        rw [Target.byteSize_eq_zero_iff] at hsize ⊢
        omega
      exact ⟨hmsize, ih m hm (ht.of_mem hm) hmsize hv
        (checkBytes_eq_ok_iff.2 ⟨ht.of_mem hm, hmsize.symm⟩)⟩
    rw [ofBytes_aggregate hkind, hcheck, Outcome.ok_bind, membersOfBytes_nil hmembers,
      Outcome.map_ok]

/-! ## Stores -/

/-- Only values of types with values are stored, and so loads of what was stored need not be held to
such types. -/
theorem supported_of_encode (h : machine.encode v ty ids = (.ok bytes, ids')) : ty.Supported := by
  apply (Ty.checkSupported_eq_ok_iff ty).1
  unfold encode at h
  cases hcheck : ty.checkSupported with
  | ok => rfl
  | error fault =>
    rw [hcheck] at h
    cases h

/-- Loaded bytes are stored only where there are as many as the type has. -/
theorem length_of_encode_concat {loaded : List SymByte} {u : Ty}
    (h : machine.encode (.concat loaded u) ty ids = (.ok bytes, ids')) :
    loaded.length = machine.target.byteSize ty := by
  by_contra hne
  rw [encode] at h
  simp only [hne, ne_eq, not_false_eq_true, if_true] at h
  split at h <;> cases h

/-- A store makes as many bytes as the type has, of whatever value. -/
theorem length_encode (h : machine.encode v ty ids = (.ok bytes, ids')) :
    bytes.length = machine.target.byteSize ty := by
  by_cases hconcat : ∃ loaded u, v = .concat loaded u
  · obtain ⟨loaded, u, rfl⟩ := hconcat
    obtain ⟨tagged, hretag, rfl⟩ := encode_eq_ok_of_concat h
    rw [Target.length_arrange, (retag_eq_ok hretag).1, List.length_map, length_of_encode_concat h]
  · have hplain : ∀ loaded u, v ≠ .concat loaded u := fun loaded u hv => hconcat ⟨loaded, u, hv⟩
    rw [(encode_eq_ok_of_plain hplain h).1, Target.length_arrange, SymByte.length_run]

theorem ne_void_of_byteSize_pos (hsize : 0 < machine.target.byteSize ty) : ty ≠ .void := by
  rintro rfl
  exact absurd hsize (Nat.lt_irrefl 0)

/-- A value that is not made of loaded bytes is loaded as it was. It is the parent of its bytes and
never decided on the way, so it may be of any depth, and may turn out to be a fault. -/
theorem decode_encode_of_plain (hsize : 0 < machine.target.byteSize ty)
    (hplain : ∀ loaded u, v ≠ .concat loaded u)
    (h : machine.encode v ty ids = (.ok bytes, ids')) : machine.decode bytes ty = .ok v := by
  have hty := supported_of_encode h
  rw [(encode_eq_ok_of_plain hplain h).1]
  apply decode_eq_of_intactParent? hty (ne_void_of_byteSize_pos hsize)
  rw [Target.arrange_arrange]
  exact intactParent?_run v _ _ hsize

/-- Loaded bytes are loaded again under new ids, and what is one whole store of them does not
change. The new ids are those that were handed out for the store, one for each that there was. -/
theorem exists_renamed_of_encode_concat {loaded : List SymByte} {u : Ty}
    (h : machine.encode (.concat loaded u) ty ids = (.ok bytes, ids')) :
    ∃ rename : Nat → Nat,
      (∀ a ∈ loaded, ∀ b ∈ loaded, rename a.storeId = rename b.storeId → a.storeId = b.storeId) ∧
      (∀ b ∈ loaded, ids.next ≤ rename b.storeId ∧ rename b.storeId < ids'.next) ∧
      machine.target.arrange bytes = loaded.map (SymByte.renamed rename) := by
  obtain ⟨tagged, hretag, rfl⟩ := encode_eq_ok_of_concat h
  obtain ⟨rfl, hnext⟩ := retag_eq_ok hretag
  refine ⟨fun id => ids.next + idNumber loaded id, ?_, ?_, Target.arrange_arrange ..⟩
  · intro a ha b hb hid
    exact storeId_eq_of_idNumber_eq ha hb (Nat.add_left_cancel hid)
  · intro b hb
    rw [hnext]
    exact ⟨Nat.le_add_right .., Nat.add_lt_add_left (idNumber_lt hb) _⟩

/-- Nothing is loaded of a type without bytes but its zero value, as there is no byte that could
refer to what was stored. -/
theorem exists_concretize_decode_nil (hflat : machine.addresses = .flat)
    (hp : 1 ≤ machine.target.pointerSize) (hty : ty.Supported)
    (hsize : machine.target.byteSize ty = 0) :
    ∃ w d, machine.decode [] ty = .ok w ∧ machine.concretize w = .ok d ∧
      machine.addresses.zeroValue ty = .ok d := by
  obtain ⟨d, hd⟩ : ∃ d, machine.addresses.zeroValue ty = .ok d :=
    hflat ▸ AddressSpace.exists_zeroValue_eq_ok ty hty
  by_cases hvoid : ty = .void
  · subst hvoid
    cases hd
    exact ⟨.void, .void, rfl, rfl, rfl⟩
  · refine ⟨.concat [] ty, d, ?_, ?_, hd⟩
    · rw [decode_eq_concat hty hvoid (by rw [Target.arrange_nil]; rfl), Target.arrange_nil]
    · rw [concretize_concat hty rfl, valueOfBytesBy]
      simp only [List.length_nil, hsize]
      exact ofBytes_nil hp hty hsize hd

/-! ## Loading what was stored -/

/-- What is loaded from the bytes that a store of a value at a type made. -/
structure Reloads (machine : Machine) (v : SymValue) (ty : Ty) (ids ids' : StoreIds)
    (bytes : List SymByte) : Prop where
  /-- there are as many bytes as the type has -/
  count : bytes.length = machine.target.byteSize ty
  /-- a value that is not made of loaded bytes is loaded as it was -/
  plain : 0 < machine.target.byteSize ty → (∀ loaded u, v ≠ .concat loaded u) →
    machine.decode bytes ty = .ok v
  /-- loaded bytes that are one whole store are loaded as its parent -/
  intact : 0 < machine.target.byteSize ty → ∀ loaded u parent, v = .concat loaded u →
    machine.intactParent? loaded ty = some parent → machine.decode bytes ty = .ok parent
  /-- other loaded bytes are loaded as they were but for their ids, which are new ones, and are
  different where they were -/
  renamed : 0 < machine.target.byteSize ty → ∀ loaded u, v = .concat loaded u →
    machine.intactParent? loaded ty = none → ∃ rename : Nat → Nat,
      (∀ a ∈ loaded, ∀ b ∈ loaded, rename a.storeId = rename b.storeId → a.storeId = b.storeId) ∧
      (∀ b ∈ loaded, ids.next ≤ rename b.storeId ∧ rename b.storeId < ids'.next) ∧
      machine.decode bytes ty = .ok (.concat (loaded.map (SymByte.renamed rename)) ty)
  /-- what is loaded of a type without bytes is decided as its zero value -/
  empty : machine.target.byteSize ty = 0 → 1 ≤ machine.target.pointerSize →
    machine.addresses = .flat → ∃ w d, machine.decode bytes ty = .ok w ∧
      machine.concretize w = .ok d ∧ machine.addresses.zeroValue ty = .ok d

/-- Loading undoes storing, in each of the ways that there are for it: a value comes back as itself,
loaded bytes as themselves under new ids or as the one store that they are, and what left no bytes
as a zero value. Nothing is asked of the value but that it could be stored. -/
theorem reloads_encode (h : machine.encode v ty ids = (.ok bytes, ids')) :
    machine.Reloads v ty ids ids' bytes where
  count := length_encode h
  plain hsize hplain := decode_encode_of_plain hsize hplain h
  intact hsize loaded u parent hv hintact := by
    subst hv
    obtain ⟨rename, hrename, -, hbytes⟩ := exists_renamed_of_encode_concat h
    apply decode_eq_of_intactParent? (supported_of_encode h) (ne_void_of_byteSize_pos hsize)
    rw [hbytes, intactParent?_renamed machine loaded ty hrename, hintact]
  renamed hsize loaded u hv hintact := by
    subst hv
    obtain ⟨rename, hrename, hfresh, hbytes⟩ := exists_renamed_of_encode_concat h
    refine ⟨rename, hrename, hfresh, ?_⟩
    rw [decode_eq_concat (supported_of_encode h) (ne_void_of_byteSize_pos hsize), hbytes]
    rw [hbytes, intactParent?_renamed machine loaded ty hrename, hintact]
  empty hsize hp hflat := by
    obtain rfl := List.eq_nil_of_length_eq_zero ((length_encode h).trans hsize)
    exact exists_concretize_decode_nil hflat hp (supported_of_encode h) hsize

/-! ## A deep sum and a mixed load -/

/-- An undefined number to which one is added so many times. -/
def deepSum : Nat → SymValue
  | 0 => .undef (.int 32)
  | n + 1 => .binary (.int (.add false false)) (deepSum n) (.scalar (.int ⟨.i32, 1⟩))

/-- A sum that is deeper than a comparison looks is not even equal to itself. A load that compared
parents would not find such a value whole. -/
theorem equalWithin_deepSum {levels n : Nat} (h : levels ≤ n) :
    (deepSum n).equalWithin levels (deepSum n) = false := by
  induction levels generalizing n with
  | zero => rfl
  | succ levels ih =>
    cases n with
    | zero => cases h
    | succ n =>
      simp only [deepSum, SymValue.equalWithin, SymValue.equalBy, ih (Nat.le_of_succ_le_succ h),
        Bool.and_false, Bool.false_and]

/-- A sum that is not equal to itself is loaded as it was stored, and four bytes of three stores
keep to three ids of their own at another type. -/
theorem reloads_deepSum :
    (deepSum 600).equal (deepSum 600) = false ∧
      (∃ bytes ids', (standard .standard).encode (deepSum 600) (.int 32) .all = (.ok bytes, ids') ∧
        (standard .standard).decode bytes (.int 32) = .ok (deepSum 600)) ∧
      ∃ bytes ids' rename, (standard .standard).encode (.concat mixedBytes (.int 32))
          (.vector 4 (.int 8)) (.above 6) = (.ok bytes, ids') ∧
        (∀ b ∈ mixedBytes, 7 ≤ rename b.storeId ∧ rename b.storeId < ids'.next) ∧
        (standard .standard).decode bytes (.vector 4 (.int 8)) =
          .ok (.concat (mixedBytes.map (SymByte.renamed rename)) (.vector 4 (.int 8))) := by
  have hplain : ∀ n loaded u, deepSum n ≠ .concat loaded u := by
    intro n
    cases n <;> simp [deepSum]
  obtain ⟨sum, ids₁, hsum⟩ : ∃ bytes ids',
      (standard .standard).encode (deepSum 600) (.int 32) .all = (.ok bytes, ids') := ⟨_, _, rfl⟩
  obtain ⟨mixed, ids₂, hmixed⟩ : ∃ bytes ids', (standard .standard).encode
      (.concat mixedBytes (.int 32)) (.vector 4 (.int 8)) (.above 6) = (.ok bytes, ids') :=
    ⟨_, _, rfl⟩
  obtain ⟨rename, -, hfresh, hdecode⟩ := (reloads_encode hmixed).renamed (by decide) _ _ rfl rfl
  exact ⟨equalWithin_deepSum (by decide),
    ⟨sum, ids₁, hsum, (reloads_encode hsum).plain (by decide) (hplain 600)⟩,
    mixed, ids₂, rename, hmixed, hfresh, hdecode⟩

end Machine

end SymbolicBytes
