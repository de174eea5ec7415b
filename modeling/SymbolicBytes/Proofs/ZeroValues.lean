import SymbolicBytes.AddressSpace
import SymbolicBytes.Proofs.Integers
import SymbolicBytes.Proofs.Outcomes
import SymbolicBytes.Proofs.Values
/-!
# Zero values

What `AddressSpace.zeroValue` gives. The zero value of a type has the type and no poison, and with
flat addresses every type with values has one (`exists_zeroValue_eq_ok`).
-/

namespace SymbolicBytes.AddressSpace

variable {space : AddressSpace}

theorem zeroValues_eq_mapM (ts : List Ty) : space.zeroValues ts = ts.mapM space.zeroValue := by
  induction ts with
  | nil => rfl
  | cons t ts ih => simp only [zeroValues, ih, List.mapM_cons]

/-- What the zero value of a type without members is. -/
theorem zeroValue_atom {t : Ty} (ht : t.aggregateKind? = none) {v : Value}
    (h : space.zeroValue t = .ok v) : (v = .void ∧ t = .void) ∨ ∃ s, v = .scalar s ∧ t = s.ty := by
  unfold zeroValue at h
  cases t with
  | int width =>
    simp only at h
    split at h
    · rename_i zero hzero
      cases h
      refine .inr ⟨.int zero, rfl, ?_⟩
      rw [Scalar.ty, FixedInt.bits_of_ofNat? hzero]
    · cases h
  | pointer =>
    obtain ⟨a, -, rfl⟩ := Outcome.map_eq_ok.1 h
    exact .inr ⟨_, rfl, rfl⟩
  | iptr =>
    cases h
    exact .inr ⟨_, rfl, rfl⟩
  | float kind =>
    cases kind <;> first | cases h; exact .inr ⟨_, rfl, rfl⟩ | cases h
  | void =>
    cases h
    exact .inl ⟨rfl, rfl⟩
  | special kind => cases h
  | sequence k count element => cases ht
  | record k fields => cases ht

/-- The zero value of an aggregate has zero values for members. -/
theorem zeroValue_aggregate {t : Ty} {kind : AggregateKind} (h : t.aggregateKind? = some kind)
    {v : Value} (hv : space.zeroValue t = .ok v) :
    ∃ vs, v = .aggregate kind vs ∧
      List.Forall₂ (fun v m => space.zeroValue m = .ok v) vs t.memberTys := by
  cases t with
  | sequence k count element =>
    obtain rfl := Option.some.inj h
    rw [zeroValue, Outcome.map_eq_ok] at hv
    obtain ⟨zero, hzero, rfl⟩ := hv
    refine ⟨_, rfl, forall₂_replicate_right.2 ⟨List.length_replicate, ?_⟩⟩
    intro w hw
    rw [(List.mem_replicate.1 hw).2, hzero]
  | record k fields =>
    obtain rfl := Option.some.inj h
    rw [zeroValue, Outcome.map_eq_ok, zeroValues_eq_mapM] at hv
    obtain ⟨vs, hvs, rfl⟩ := hv
    exact ⟨vs, rfl, (Outcome.mapM_eq_ok.1 hvs).flip⟩
  | _ => cases h

/-- Induction over zero values: an aggregate may use what holds of its members. -/
theorem zeroValue_induction {motive : Ty → Value → Prop} (void : motive .void .void)
    (scalar : ∀ s, space.zeroValue s.ty = .ok (.scalar s) → motive s.ty (.scalar s))
    (aggregate : ∀ t kind vs, t.aggregateKind? = some kind →
      List.Forall₂ (fun v m => motive m v) vs t.memberTys → motive t (.aggregate kind vs))
    {t : Ty} {v : Value} (h : space.zeroValue t = .ok v) : motive t v := by
  induction t using Ty.byMembers generalizing v with
  | atom t ht =>
    rcases zeroValue_atom ht h with ⟨rfl, rfl⟩ | ⟨s, rfl, rfl⟩
    · exact void
    · exact scalar s h
  | aggregate t kind hkind ih =>
    obtain ⟨vs, rfl, hvs⟩ := zeroValue_aggregate hkind h
    exact aggregate t kind vs hkind (forall₂_of_mem hvs fun v _ m hm hv => ih m hm hv)

/-- The zero value of a type has the type. -/
theorem hasTy_zeroValue {t : Ty} {v : Value} (h : space.zeroValue t = .ok v) : v.HasTy t :=
  zeroValue_induction (motive := fun t v => v.HasTy t) .void (fun s _ => .scalar s)
    (fun _ _ _ hkind hmembers => .aggregate hkind hmembers) h

/-- There is no poison in a zero value, so an undefined value is never decided as poison. -/
theorem poisonFree_zeroValue {t : Ty} {v : Value} (h : space.zeroValue t = .ok v) :
    v.PoisonFree := by
  refine zeroValue_induction (motive := fun _ v => v.PoisonFree) Value.poisonFree_void
    (fun s _ => Value.poisonFree_scalar s) ?_ h
  intro t kind vs _ hmembers
  rw [Value.poisonFree_aggregate]
  intro v hv
  obtain ⟨-, -, hfree⟩ := exists_mem_of_forall₂ hmembers hv
  exact hfree

/-- What holds of every scalar that is a zero value holds inside every zero value. -/
theorem scalarsIn_zeroValue {P : Scalar → Prop}
    (hP : ∀ s, space.zeroValue s.ty = .ok (.scalar s) → P s) {t : Ty} {v : Value}
    (h : space.zeroValue t = .ok v) : v.ScalarsIn P := by
  refine zeroValue_induction (motive := fun _ v => v.ScalarsIn P) Value.scalarsIn_void
    (fun s hs => Value.scalarsIn_scalar.2 (hP s hs)) ?_ h
  intro t kind vs _ hmembers
  rw [Value.scalarsIn_aggregate]
  intro v hv
  obtain ⟨-, -, hall⟩ := exists_mem_of_forall₂ hmembers hv
  exact hall

/-- With flat addresses every type with values has a zero value. Other address spaces may have no
null address. -/
theorem exists_zeroValue_eq_ok (t : Ty) (ht : t.Supported) : ∃ v, flat.zeroValue t = .ok v := by
  induction t using Ty.byParts with
  | atom t hatom =>
    cases t with
    | int width =>
      obtain ⟨w, hw⟩ := Ty.supported_int_iff.1 ht
      simp [zeroValue, FixedInt.zero?, FixedInt.ofNat?, hw]
    | float kind =>
      cases kind with
      | float | double => exact ⟨_, rfl⟩
      | _ => cases ht
    | special kind => cases ht
    | sequence k count element => cases hatom
    | record k fields => cases hatom
    | _ => exact ⟨_, rfl⟩
  | sequence kind count element ih =>
    obtain ⟨zero, hzero⟩ := ih (Ty.supported_sequence_iff.1 ht)
    refine ⟨.aggregate (.sequence kind) (List.replicate count zero), ?_⟩
    rw [zeroValue, hzero, Outcome.map_ok]
  | record kind fields ih =>
    obtain ⟨vs, hvs⟩ := Outcome.exists_mapM_eq_ok fun m hm =>
      ih m hm (Ty.supported_record_iff.1 ht m hm)
    refine ⟨.aggregate (.record kind) vs, ?_⟩
    rw [zeroValue, zeroValues_eq_mapM, hvs, Outcome.map_ok]

end SymbolicBytes.AddressSpace
