import SymbolicBytes.Proofs.IssuedIds
import SymbolicBytes.Proofs.Rebuilding
import SymbolicBytes.Proofs.ZeroValues
/-!
# Types without values

A type is *valueless* if it has a part that no value has: an integer width or a float format other
than those of scalars, or one of the types that can only be named. The part counts at any depth and
even where there are no elements (`Ty.Valueless`). These are the types that are not supported
(`Ty.valueless_iff`).

All operations agree on them: storing, loading, rebuilding from bytes and the zero value refuse a
type as one without values exactly if it is valueless, whatever else is wrong with what they are
given, and what they refuse at other types is malformed (`Machine.refusesValueless`).
-/

namespace SymbolicBytes

/-- Whether an operation fails for a reason of this sort. -/
def Outcome.FailsAs {α : Type} (kind : FaultKind) (x : Outcome α) : Prop :=
  ∃ fault, x = .error fault ∧ fault.kind = kind

theorem IntWidth.ofNat?_eq_none_iff {n : Nat} :
    ofNat? n = none ↔ n ≠ 1 ∧ n ≠ 8 ∧ n ≠ 32 ∧ n ≠ 64 := by
  unfold ofNat?
  split <;> simp_all

namespace Ty

/-! ## The types -/

/-- Whether some part of the type has no values. -/
inductive Valueless : Ty → Prop where
  /-- integers of another width than 1, 8, 32 and 64 bits -/
  | int {width : Nat} (hwidth : width ≠ 1 ∧ width ≠ 8 ∧ width ≠ 32 ∧ width ≠ 64) :
      Valueless (.int width)
  /-- floats of another format than the single and the double one -/
  | float {kind : FloatKind}
      (hkind : kind = .half ∨ kind = .x86Fp80 ∨ kind = .fp128 ∨ kind = .ppcFp128) :
      Valueless (.float kind)
  /-- a type that can only be named -/
  | special (kind : SpecialKind) : Valueless (.special kind)
  /-- an array or a vector, even of no elements, whose element type is one -/
  | element (kind : SequenceKind) (count : Nat) {element : Ty} (h : Valueless element) :
      Valueless (.sequence kind count element)
  /-- a struct with a field whose type is one -/
  | field (kind : RecordKind) {fields : List Ty} {t : Ty} (ht : t ∈ fields) (h : Valueless t) :
      Valueless (.record kind fields)

/-- The types with a part that has no values are those that are not supported. The check stops at
the first such part, in whatever order it looks. -/
theorem valueless_iff {t : Ty} : t.Valueless ↔ ¬ t.Supported := by
  constructor
  · intro h
    induction h with
    | int hwidth =>
      rw [supported_int_iff, IntWidth.ofNat?_eq_none_iff.2 hwidth]
      exact nofun
    | float hkind => rcases hkind with rfl | rfl | rfl | rfl <;> exact nofun
    | special kind => exact nofun
    | element kind count _ ih => rwa [supported_sequence_iff]
    | field kind ht _ ih =>
      intro hfields
      exact ih (supported_record_iff.1 hfields _ ht)
  · intro h
    induction t using byParts with
    | atom t ht =>
      cases t with
      | int width =>
        rw [supported_int_iff, not_exists, ← Option.eq_none_iff_forall_ne_some,
          IntWidth.ofNat?_eq_none_iff] at h
        exact .int h
      | float kind =>
        cases kind with
        | float | double => exact absurd rfl h
        | _ => exact .float (by simp)
      | special kind => exact .special kind
      | sequence k count element => cases ht
      | record k fields => cases ht
      | _ => exact absurd rfl h
    | sequence kind count element ih =>
      -- without regard to how many elements there are
      rw [supported_sequence_iff] at h
      exact .element kind count (ih h)
    | record kind fields ih =>
      rw [supported_record_iff] at h
      push Not at h
      obtain ⟨t, ht, hnot⟩ := h
      exact .field kind ht (ih t ht hnot)

theorem Valueless.exists_checkSupported_eq_error {t : Ty} (h : t.Valueless) :
    ∃ leaf, t.checkSupported = .error (.noValues leaf) := by
  unfold checkSupported
  cases hleaf : t.unsupported? with
  | none => exact absurd hleaf (valueless_iff.1 h)
  | some leaf => exact ⟨leaf, rfl⟩

/-- What begins with the check that the type has values fails as that check does, whatever it would
do after. Each operation is then only to be seen to begin with it. -/
theorem Valueless.failsAs_bind {t : Ty} (h : t.Valueless) {α : Type} (f : Unit → Outcome α) :
    Outcome.FailsAs .unsupported (t.checkSupported >>= f) := by
  obtain ⟨leaf, hleaf⟩ := h.exists_checkSupported_eq_error
  rw [hleaf, Outcome.error_bind]
  exact ⟨_, rfl, rfl⟩

end Ty

/-! ## Zero values -/

namespace AddressSpace

/-- Only types with values have a zero value. -/
theorem supported_of_zeroValue {space : AddressSpace} {t : Ty} {v : Value}
    (h : space.zeroValue t = .ok v) : t.Supported := by
  induction t using Ty.byParts generalizing v with
  | atom t ht =>
    rcases zeroValue_atom ht h with ⟨-, rfl⟩ | ⟨s, -, rfl⟩
    · rfl
    · exact s.supported_ty
  | sequence kind count element ih =>
    obtain ⟨zero, hzero, -⟩ := Outcome.map_eq_ok.1 h
    exact Ty.supported_sequence_iff.2 (ih hzero)
  | record kind fields ih =>
    rw [zeroValue, zeroValues_eq_mapM] at h
    obtain ⟨vs, hvs, -⟩ := Outcome.map_eq_ok.1 h
    rw [Ty.supported_record_iff]
    intro t ht
    obtain ⟨v, -, hv⟩ := exists_mem_of_forall₂ (Outcome.mapM_eq_ok.1 hvs) ht
    exact ih t ht hv

/-- With flat addresses the zero value of a type is refused for the type alone. -/
theorem kind_of_zeroValue_eq_error {t : Ty} {fault : Fault} (h : flat.zeroValue t = .error fault) :
    fault.kind = .unsupported := by
  induction t using Ty.byParts generalizing fault with
  | atom t ht =>
    unfold zeroValue at h
    cases t with
    | int width =>
      simp only at h
      split at h <;> cases h
      rfl
    | float kind => cases kind <;> cases h <;> rfl
    | special kind =>
      cases h
      rfl
    | sequence k count element => cases ht
    | record k fields => cases ht
    | _ => cases h
  | sequence kind count element ih => exact ih (Outcome.map_eq_error.1 h)
  | record kind fields ih =>
    rw [zeroValue, zeroValues_eq_mapM, Outcome.map_eq_error] at h
    obtain ⟨t, ht, hfault⟩ := Outcome.mapM_eq_error h
    exact ih t ht hfault

/-- With flat addresses the zero value is refused exactly at the types that are valueless. It has no
check of its own, but comes to every part of the type. -/
theorem failsAs_zeroValue_iff {t : Ty} :
    Outcome.FailsAs .unsupported (flat.zeroValue t) ↔ t.Valueless := by
  rw [Ty.valueless_iff]
  constructor
  · rintro ⟨fault, hfault, -⟩ ht
    obtain ⟨v, hv⟩ := exists_zeroValue_eq_ok t ht
    cases hv.symm.trans hfault
  · intro hnot
    cases hv : flat.zeroValue t with
    | ok v => exact absurd (supported_of_zeroValue hv) hnot
    | error fault => exact ⟨fault, rfl, kind_of_zeroValue_eq_error hv⟩

end AddressSpace

namespace Machine

variable {machine : Machine} {t : Ty}

/-! ## Rebuilding -/

/-- A type with values is refused for the number of bytes alone. -/
theorem kind_of_checkBytes_eq_error (ht : t.Supported) {count : Nat} {fault : Fault}
    (h : machine.checkBytes t count = .error fault) : fault.kind = .structural := by
  rw [checkBytes, (Ty.checkSupported_eq_ok_iff t).2 ht, Outcome.ok_bind] at h
  rcases Outcome.eq_or_eq_of_ite h with h | h <;> cases h
  rfl

theorem kind_of_cut_eq_error {size : Nat} {bytes : List UInt8} {fault : Fault}
    (h : cut t size bytes = .error fault) : fault.kind = .structural := by
  rw [cut] at h
  split at h <;> cases h
  rfl

theorem kind_of_membersOfBytes_eq_error {ts : List Ty}
    (hts : ∀ t ∈ ts, ∀ chunk fault, machine.ofBytes t chunk = .error fault →
      fault.kind = .structural) {bytes : List UInt8} {fault : Fault}
    (h : machine.membersOfBytes ts bytes = .error fault) : fault.kind = .structural := by
  induction ts generalizing bytes with
  | nil =>
    change cutEnd bytes = .error fault at h
    rw [cutEnd] at h
    split at h <;> cases h
    rfl
  | cons t ts ih =>
    rw [List.forall_mem_cons] at hts
    rw [membersOfBytes_cons] at h
    rcases Outcome.bind_eq_error.1 h with h | ⟨⟨chunk, rest⟩, -, h⟩
    · exact kind_of_cut_eq_error h
    · rcases Outcome.bind_eq_error.1 h with h | ⟨v, -, h⟩
      · exact hts.1 chunk fault h
      · rcases Outcome.bind_eq_error.1 h with h | ⟨vs, -, h⟩
        · exact ih hts.2 h
        · cases h

/-- With flat addresses, bytes that are no value of a type with values are malformed. This takes the
induction over types, as the bytes of a member are refused for the member. -/
theorem kind_of_ofBytes_eq_error (hflat : machine.addresses = .flat) (ht : t.Supported)
    {bytes : List UInt8} {fault : Fault} (h : machine.ofBytes t bytes = .error fault) :
    fault.kind = .structural := by
  induction t using Ty.byMembers generalizing bytes fault with
  | atom t hatom =>
    unfold ofBytes at h
    rcases Outcome.bind_eq_error.1 h with h | ⟨-, -, h⟩
    · exact kind_of_checkBytes_eq_error ht h
    · cases t with
      | int width =>
        obtain ⟨w, hw⟩ := Ty.supported_int_iff.1 ht
        simp [FixedInt.ofNat?, hw] at h
      | pointer => simp [hflat, AddressSpace.flat] at h
      | float kind =>
        cases kind with
        | float | double => cases h
        | _ => cases ht
      | special kind => cases ht
      | sequence k count element => cases hatom
      | record k fields => cases hatom
      | _ => cases h
  | aggregate t kind hkind ih =>
    rw [ofBytes_aggregate hkind] at h
    rcases Outcome.bind_eq_error.1 h with h | ⟨-, -, h⟩
    · exact kind_of_checkBytes_eq_error ht h
    · exact kind_of_membersOfBytes_eq_error
        (fun m hm chunk fault h => ih m hm (ht.of_mem hm) h) (Outcome.map_eq_error.1 h)

/-- At a valueless type any bytes are refused for the type: their check begins with that of the
type. -/
theorem failsAs_ofBytes (h : t.Valueless) (bytes : List UInt8) :
    Outcome.FailsAs .unsupported (machine.ofBytes t bytes) := by
  obtain ⟨leaf, hleaf⟩ := h.exists_checkSupported_eq_error
  unfold Machine.ofBytes checkBytes
  rw [hleaf]
  exact ⟨_, rfl, rfl⟩

/-! ## Storing and loading -/

/-- Tagging bytes anew fails only if the ids run out. No byte is left without a class. -/
theorem kind_of_retag_eq_error {bytes : List SymByte} {ids : StoreIds} {fault : Fault}
    (h : (retag bytes ids).1 = .error fault) : fault.kind = .exhausted := by
  simp only [retag] at h
  split at h
  · rename_i htake
    cases h
    rw [StoreIds.take_eq_error htake]
    rfl
  · rename_i htake
    obtain ⟨rfl, -⟩ := StoreIds.take_eq_ok htake
    rw [relabel_eq] at h
    cases h

/-- At a valueless type every store is refused for the type. -/
theorem failsAs_encode (h : t.Valueless) (v : SymValue) (ids : StoreIds) :
    Outcome.FailsAs .unsupported (machine.encode v t ids).1 := by
  obtain ⟨leaf, hleaf⟩ := h.exists_checkSupported_eq_error
  unfold Machine.encode
  rw [hleaf]
  exact ⟨_, rfl, rfl⟩

/-- At a type with values, a store is refused as malformed or for want of ids. -/
theorem kind_of_encode_eq_error (ht : t.Supported) {v : SymValue} {ids : StoreIds} {fault : Fault}
    (h : (machine.encode v t ids).1 = .error fault) :
    fault.kind = .structural ∨ fault.kind = .exhausted := by
  unfold encode at h
  simp only [(Ty.checkSupported_eq_ok_iff t).2 ht] at h
  split at h
  · rcases Outcome.eq_or_eq_of_ite h with h | h <;> cases h
    exact .inl rfl
  · -- loaded bytes
    split at h
    · cases h
      exact .inl rfl
    · exact .inr (kind_of_retag_eq_error (Outcome.map_eq_error.1 h))
  · cases h
    exact .inl rfl
  · split at h
    · rename_i hshape
      cases h
      exact .inl (SymValue.kind_of_shapeWithin_eq_error hshape)
    · split at h
      · rename_i hfresh
        cases h
        rw [(StoreIds.fresh_eq_error hfresh).2.2]
        exact .inr rfl
      · cases h

/-- At a type with values, a load is refused as malformed. -/
theorem kind_of_decode_eq_error (ht : t.Supported) {bytes : List SymByte} {fault : Fault}
    (h : machine.decode bytes t = .error fault) : fault.kind = .structural := by
  rw [decode, (Ty.checkSupported_eq_ok_iff t).2 ht, Outcome.ok_bind] at h
  split at h
  · rcases Outcome.eq_or_eq_of_ite h with h | h <;> cases h
    rfl
  · simp only at h
    split at h <;> cases h

/-- A store is refused for want of ids only if it takes more of them than there are. -/
theorem last_lt_of_encode_exhausted {v : SymValue} {ids : StoreIds} {fault : Fault}
    (h : (machine.encode v t ids).1 = .error fault) (hkind : fault.kind = .exhausted) :
    StoreIds.last < ids.next + (IdRequest.encode machine v t).cost := by
  obtain ⟨issued, hserved⟩ := IdRequest.exists_served_encode ids machine v t
  obtain ⟨hlast, hcost⟩ := hserved.exhausted fault (Outcome.map_eq_error.2 h) hkind
  have hnext := hserved.issues.eq_range'.2
  omega

/-- What holds of the operations at a type with and without values. -/
structure RefusesValueless (machine : Machine) (t : Ty) : Prop where
  /-- storing refuses the type exactly if it is valueless, whatever is stored -/
  encode : ∀ v ids, Outcome.FailsAs .unsupported (machine.encode v t ids).1 ↔ t.Valueless
  /-- so does loading, from any bytes -/
  decode : ∀ bytes, Outcome.FailsAs .unsupported (machine.decode bytes t) ↔ t.Valueless
  /-- so does rebuilding a value, from any bytes -/
  ofBytes : ∀ bytes, Outcome.FailsAs .unsupported (machine.ofBytes t bytes) ↔ t.Valueless
  /-- so does the zero value -/
  zeroValue : Outcome.FailsAs .unsupported (machine.addresses.zeroValue t) ↔ t.Valueless
  /-- so does the undefined value when it has to be decided -/
  undef : Outcome.FailsAs .unsupported (machine.concretize (.undef t)) ↔ t.Valueless
  /-- what any bytes spell at a valueless type is refused for the type -/
  concat : t.Valueless → ∀ bytes,
    Outcome.FailsAs .unsupported (machine.concretize (.concat bytes t))
  /-- at another type a store is refused as malformed, unless it takes more ids than there are -/
  encodeOther : ¬ t.Valueless → ∀ v ids fault, (machine.encode v t ids).1 = .error fault →
    fault.kind = .structural ∨
      fault.kind = .exhausted ∧ StoreIds.last < ids.next + (IdRequest.encode machine v t).cost
  /-- at another type a load is refused as malformed -/
  decodeOther : ¬ t.Valueless → ∀ bytes fault, machine.decode bytes t = .error fault →
    fault.kind = .structural
  /-- at another type bytes that are no value are malformed -/
  ofBytesOther : ¬ t.Valueless → ∀ bytes fault, machine.ofBytes t bytes = .error fault →
    fault.kind = .structural
  /-- any other type has a zero value -/
  zeroValueOther : ¬ t.Valueless → ∃ zero, machine.addresses.zeroValue t = .ok zero

/-- With flat addresses all operations agree on the types without values, and each refuses them
before it looks at what it is given. So a type can be asked about once, by any of them. -/
theorem refusesValueless (hflat : machine.addresses = .flat) : machine.RefusesValueless t := by
  have hzero : Outcome.FailsAs .unsupported (machine.addresses.zeroValue t) ↔ t.Valueless := by
    rw [hflat]
    exact AddressSpace.failsAs_zeroValue_iff
  by_cases h : t.Valueless
  · exact
      { encode := fun v ids => iff_of_true (failsAs_encode h v ids) h
        decode := fun bytes => iff_of_true (h.failsAs_bind _) h
        ofBytes := fun bytes => iff_of_true (failsAs_ofBytes h bytes) h
        zeroValue := hzero
        undef := hzero
        concat := fun _ bytes => h.failsAs_bind _
        encodeOther := absurd h
        decodeOther := absurd h
        ofBytesOther := absurd h
        zeroValueOther := absurd h }
  · have ht : t.Supported := not_not.1 (mt Ty.valueless_iff.2 h)
    refine
      { encode := fun v ids => iff_of_false ?_ h
        decode := fun bytes => iff_of_false ?_ h
        ofBytes := fun bytes => iff_of_false ?_ h
        zeroValue := hzero
        undef := hzero
        concat := fun hvalueless => absurd hvalueless h
        encodeOther := fun _ v ids fault hfault => ?_
        decodeOther := fun _ bytes fault hfault => kind_of_decode_eq_error ht hfault
        ofBytesOther := fun _ bytes fault hfault => kind_of_ofBytes_eq_error hflat ht hfault
        zeroValueOther := fun _ => ?_ }
    · rintro ⟨fault, hfault, hkind⟩
      have hother := kind_of_encode_eq_error ht hfault
      rw [hkind] at hother
      simp at hother
    · rintro ⟨fault, hfault, hkind⟩
      cases hkind.symm.trans (kind_of_decode_eq_error ht hfault)
    · rintro ⟨fault, hfault, hkind⟩
      cases hkind.symm.trans (kind_of_ofBytes_eq_error hflat ht hfault)
    · exact (kind_of_encode_eq_error ht hfault).imp_right fun hkind =>
        ⟨hkind, last_lt_of_encode_exhausted hfault hkind⟩
    · rw [hflat]
      exact AddressSpace.exists_zeroValue_eq_ok t ht

/-- A struct with an empty array of vectors of 16-bit integers in it. -/
def emptyOddLanes : Ty := .record .struct [.int 32, .array 0 (.vector 2 (.int 16)), .pointer]

/-- Even where there are no lanes, the type of the lanes counts. -/
theorem refusesValueless_emptyOddLanes :
    let machine := standard .standard
    machine.addresses = .flat ∧ machine.RefusesValueless emptyOddLanes ∧
      ∀ bytes, Outcome.FailsAs .unsupported (machine.ofBytes emptyOddLanes bytes) := by
  intro machine
  have hagrees : machine.RefusesValueless emptyOddLanes := refusesValueless rfl
  have hvalueless : emptyOddLanes.Valueless :=
    .field .struct (List.mem_of_getElem? (i := 1) rfl)
      (.element .array 0 (.element .vector 2 (.int (by omega))))
  exact ⟨rfl, hagrees, fun bytes => (hagrees.ofBytes bytes).2 hvalueless⟩

end Machine

end SymbolicBytes
