import SymbolicBytes.Proofs.Conversions
import SymbolicBytes.Proofs.PoisonOrder
/-!
# More poison in, no less poison out

Deciding a value is monotone in its poison. Where some of the subvalues of a value of a type are
turned to poison and the value could be decided before, it still can, and what is decided is less
defined than before, or the same (`exists_concretize_lessDefined`). This holds of every set of
instructions that is monotone on operands that are not poison as a whole
(`InstructionSet.Monotone`); the others are never applied.

The operations of the standard instructions are monotone because a lane that is less defined is
poison or the same lane; so are the bytes that a bitcast reads.
-/

namespace SymbolicBytes

/-! ## Operations -/

theorem BinaryOp.scalars_of_onScalars {op : BinaryOp} {bits : Nat} {v w d : Value}
    (h : op.onScalars bits v w = .ok d) : ∃ s t, v = .scalar s ∧ w = .scalar t := by
  cases v with
  | scalar s =>
    cases w with
    | scalar t => exact ⟨s, t, rfl, rfl⟩
    | _ => cases op <;> cases s <;> cases h
  | _ => cases op <;> cases h

/-- Operands that are no vectors are the same if they are less defined and not poison. -/
theorem BinaryOp.onScalars_lessDefined {op : BinaryOp} {bits : Nat} {v' v w' w d : Value}
    (hv : v'.LessDefined v) (hw : w'.LessDefined w) (hvpoison : v'.isPoison = false)
    (hwpoison : w'.isPoison = false) (h : op.onScalars bits v w = .ok d) : v' = v ∧ w' = w := by
  obtain ⟨s, t, rfl, rfl⟩ := BinaryOp.scalars_of_onScalars h
  exact ⟨hv.scalar_inv hvpoison, hw.scalar_inv hwpoison⟩

/-- A lane of operands that are less defined is poison or the same. Poison in either operand is
poison of the type of the result. -/
theorem BinaryOp.exists_lane_lessDefined {op : BinaryOp} {bits : Nat} {v' v w' w lane : Value}
    {element : Ty} (hv' : v'.HasTy element) (hw' : w'.HasTy element) (hvle : v'.LessDefined v)
    (hwle : w'.LessDefined w) (hty : lane.HasTy (op.lanePoisonTy element))
    (h : (∃ t, (v = .poison t ∨ w = .poison t) ∧ lane = .poison (op.lanePoisonTy t)) ∨
      op.onScalars bits v w = .ok lane) :
    ∃ d, (match (v', w') with
        | (.poison t, _) => .ok (.poison (op.lanePoisonTy t))
        | (_, .poison t) => .ok (.poison (op.lanePoisonTy t))
        | (v, w) => op.onScalars bits v w) = Except.ok d ∧ d.LessDefined lane := by
  cases hvpoison : v'.isPoison with
  | true =>
    cases v' with
    | poison t => exact ⟨.poison (op.lanePoisonTy t), rfl, .poison (hv'.poison_eq ▸ hty)⟩
    | _ => cases hvpoison
  | false =>
    cases hwpoison : w'.isPoison with
    | true =>
      cases w' with
      | poison t =>
        refine ⟨.poison (op.lanePoisonTy t), ?_, .poison (hw'.poison_eq ▸ hty)⟩
        cases v' <;> first | rfl | cases hvpoison
      | _ => cases hwpoison
    | false =>
      rcases h with ⟨t, rfl | rfl, -⟩ | h
      · cases hvle.isPoison_eq_false hvpoison
      · cases hwle.isPoison_eq_false hwpoison
      · obtain ⟨rfl, rfl⟩ := BinaryOp.onScalars_lessDefined hvle hwle hvpoison hwpoison h
        obtain ⟨s, t, rfl, rfl⟩ := BinaryOp.scalars_of_onScalars h
        exact ⟨lane, h, .refl lane⟩

/-- An operation on operands that are less defined and not poison gives a result that is. What an
operation makes of whole poison is not up to it. -/
theorem BinaryOp.onLanes_lessDefined {op : BinaryOp} {bits : Nat} {v' v w' w d : Value} {t : Ty}
    (hv : v.HasTy t) (hv' : v'.HasTy t) (hw : w.HasTy t) (hw' : w'.HasTy t)
    (hvle : v'.LessDefined v) (hwle : w'.LessDefined w) (hpoison : poisonOperand? v' w' = none)
    (h : onLanes op.lanePoisonTy (op.onScalars bits) v w = .ok d) :
    ∃ d', onLanes op.lanePoisonTy (op.onScalars bits) v' w' = .ok d' ∧ d'.LessDefined d := by
  obtain ⟨hvpoison, hwpoison⟩ := poisonOperand?_eq_none_iff.1 hpoison
  rcases onLanes_inv h with ⟨vs, ws, ds, rfl, rfl, hlen, rfl, hlanes⟩ | ⟨-, hscalars⟩
  · obtain ⟨vs', rfl, hvs⟩ := hvle.aggregate_inv hvpoison
    obtain ⟨ws', rfl, hws⟩ := hwle.aggregate_inv hwpoison
    have hlen' : vs'.length = ws'.length := by rw [hvs.length_eq, hws.length_eq, hlen]
    -- the lanes of all operands have one type, and those of the result the type it makes
    have hd := BinaryOp.hasTy_onLanes hv hw rfl h
    obtain ⟨count, element, rfl, -, hvty'⟩ := hv'.vector_inv
    obtain ⟨_, _, heq, -, hwty'⟩ := hw'.vector_inv
    cases heq
    rw [BinaryOp.resultTy_vector] at hd
    obtain ⟨_, _, heq, -, hdty⟩ := hd.vector_inv
    cases heq
    rw [onLanes, if_pos hlen']
    apply Value.exists_lessDefined_of_mapM
    have hpairs := forall₂_zip hvs.flip hws.flip
    have hpairs := forall₂_of_mem hpairs
      (S := fun p q => q ∈ vs'.zip ws' ∧ q.1.LessDefined p.1 ∧ q.2.LessDefined p.2)
      fun p _ q hq hle => ⟨hq, hle⟩
    have hlanes := forall₂_of_mem hlanes (S := fun p d => d ∈ ds ∧ _)
      fun p _ d hd hlane => ⟨hd, hlane⟩
    refine forall₂_of_common hpairs hlanes ?_
    rintro ⟨v, w⟩ ⟨v', w'⟩ lane ⟨hmem, hvle, hwle⟩ ⟨hlane, h⟩
    exact BinaryOp.exists_lane_lessDefined (hvty' v' (List.of_mem_zip hmem).1)
      (hwty' w' (List.of_mem_zip hmem).2) hvle hwle (hdty lane hlane) h
  · obtain ⟨rfl, rfl⟩ := BinaryOp.onScalars_lessDefined hvle hwle hvpoison hwpoison hscalars
    exact ⟨d, h, .refl d⟩

/-! ## Conversions -/

/-- A conversion lane by lane gives less defined lanes from less defined ones, if it does so for
each. -/
theorem castLanes_lessDefined {source target : Ty} {f : Value → Outcome Value}
    {vs' vs : List Value} {d : Value} (hle : List.Forall₂ Value.LessDefined vs' vs)
    (hvs : ∀ v ∈ vs, v.HasTy source) (hvs' : ∀ v ∈ vs', v.HasTy source)
    (hd : d.HasTy (.vector vs.length target))
    (hf : ∀ {v v' d}, v.HasTy source → v'.HasTy source → v'.LessDefined v → v'.isPoison = false →
      f v = .ok d → ∃ d', f v' = .ok d' ∧ d'.LessDefined d)
    (h : Value.vector <$> vs.mapM (castLane target f) = .ok d) :
    ∃ d', Value.vector <$> vs'.mapM (castLane target f) = .ok d' ∧ d'.LessDefined d := by
  obtain ⟨ds, hds, rfl⟩ := Outcome.map_eq_ok.1 h
  obtain ⟨_, _, heq, -, hdty⟩ := hd.vector_inv
  cases heq
  apply Value.exists_lessDefined_of_mapM
  have hpairs := forall₂_of_mem hle.flip (S := fun v v' => v ∈ vs ∧ v' ∈ vs' ∧ v'.LessDefined v)
    fun v hv v' hv' hle => ⟨hv, hv', hle⟩
  have hlanes := forall₂_of_mem (Outcome.mapM_eq_ok.1 hds) (S := fun v d => d ∈ ds ∧ _)
    fun v _ d hd hlane => ⟨hd, hlane⟩
  refine forall₂_of_common hpairs hlanes ?_
  intro v v' lane ⟨hv, hv', hle⟩ ⟨hlane, h⟩
  cases hpoison : v'.isPoison with
  | true =>
    cases v' with
    | poison ty => exact ⟨.poison target, rfl, .poison (hdty lane hlane)⟩
    | _ => cases hpoison
  | false =>
    rcases castLane_inv h with ⟨hpoison', -⟩ | ⟨-, h⟩
    · rw [hle.isPoison_eq_false hpoison] at hpoison'
      cases hpoison'
    · obtain ⟨d', hd', hle⟩ := hf (hvs v hv) (hvs' v' hv') hle hpoison h
      refine ⟨d', ?_, hle⟩
      cases v' with
      | poison ty => cases hpoison
      | _ => exact hd'

/-- A value without members is the same if it is less defined and not poison. -/
theorem Value.LessDefined.eq_of_members? {v' v : Value} (h : v'.LessDefined v)
    (hpoison : v'.isPoison = false) (hmembers : v.members? = none) : v' = v := by
  cases h with
  | poison hv => cases hpoison
  | aggregate => cases hmembers
  | _ => rfl

theorem Cast.members?_of_onScalar {cast : Cast} {bits : Nat} {v d : Value} {ty : Ty}
    (h : cast.onScalar bits v ty = .ok d) : v.members? = none := by
  cases v with
  | aggregate kind members => cases cast <;> cases h
  | _ => rfl

/-- What has no members is converted as a whole, at a vector type as well. -/
theorem Cast.onLanes_eq_onScalar {cast : Cast} {bits : Nat} {source target : Ty} {v : Value}
    (h : v.members? = none) : cast.onLanes bits source v target = cast.onScalar bits v target := by
  unfold Cast.onLanes
  split
  · cases h
  · rfl

/-- A conversion of a value that is less defined and not poison gives one that is less defined. -/
theorem Cast.onLanes_lessDefined {cast : Cast} {bits : Nat} {source target : Ty} {v' v d : Value}
    (hv : v.HasTy source) (hv' : v'.HasTy source) (hle : v'.LessDefined v)
    (hpoison : v'.isPoison = false) (h : cast.onLanes bits source v target = .ok d) :
    ∃ d', cast.onLanes bits source v' target = .ok d' ∧ d'.LessDefined d := by
  have hd := Cast.hasTy_onLanes hv h
  fun_induction Cast.onLanes bits cast source v target generalizing v' d with
  | case1 n source vs target ih =>
    obtain ⟨vs', rfl, hvs⟩ := hle.aggregate_inv hpoison
    obtain ⟨_, _, heq, -, hty⟩ := hv.vector_inv
    cases heq
    obtain ⟨_, _, heq, -, hty'⟩ := hv'.vector_inv
    cases heq
    rw [Cast.onLanes, if_pos hvs.length_eq]
    exact castLanes_lessDefined hvs hty hty' hd
      (fun hv hv' hle hpoison h => ih _ hv hv' hle hpoison h (Cast.hasTy_onLanes hv h)) h
  | case2 => cases h
  | case3 source v target =>
    have hmembers := Cast.members?_of_onScalar h
    obtain rfl := hle.eq_of_members? hpoison hmembers
    exact ⟨d, by rw [Cast.onLanes_eq_onScalar hmembers, h], .refl d⟩

namespace Machine

variable {machine : Machine} {cast : Cast} {source target : Ty} {v' v d : Value}

theorem members?_of_castPointer (h : machine.castPointer cast v target = .ok d) :
    v.members? = none := by
  cases v with
  | aggregate kind members => cases cast <;> cases h
  | _ => rfl

theorem castPointers_eq_castPointer (h : v.members? = none) :
    machine.castPointers cast source v target = machine.castPointer cast v target := by
  unfold castPointers
  split
  · cases h
  · cases h
  · rfl

/-- A conversion of pointers that are less defined and not poison gives a value that is less
defined. -/
theorem castPointers_lessDefined (hv : v.HasTy source) (hv' : v'.HasTy source)
    (hle : v'.LessDefined v) (hpoison : v'.isPoison = false)
    (h : machine.castPointers cast source v target = .ok d) :
    ∃ d', machine.castPointers cast source v' target = .ok d' ∧ d'.LessDefined d := by
  have hd := hasTy_castPointers hv h
  fun_induction castPointers machine cast source v target generalizing v' d with
  | case1 n source vs target ih =>
    obtain ⟨vs', rfl, hvs⟩ := hle.aggregate_inv hpoison
    obtain ⟨_, _, heq, -, hty⟩ := hv.vector_inv
    cases heq
    obtain ⟨_, _, heq, -, hty'⟩ := hv'.vector_inv
    cases heq
    rw [castPointers, if_pos hvs.length_eq]
    exact castLanes_lessDefined hvs hty hty' hd
      (fun hv hv' hle hpoison h => ih _ hv hv' hle hpoison h (hasTy_castPointers hv h)) h
  | case2 => cases h
  | case3 => cases h
  | case4 source v target =>
    have hmembers := members?_of_castPointer h
    obtain rfl := hle.eq_of_members? hpoison hmembers
    exact ⟨d, by rw [castPointers_eq_castPointer hmembers, h], .refl d⟩

/-- The bytes of a less defined value are poison, or are read as the same value. -/
theorem bitcast_lessDefined (hv : v.HasTy source) (hle : v'.LessDefined v)
    (h : machine.bitcast source v target = .ok d) :
    ∃ d', machine.bitcast source v' target = .ok d' ∧ d'.LessDefined d := by
  have hd := hasTy_bitcast hv h
  rcases bitcast_inv h with ⟨rfl, rfl⟩ | ⟨hne, hsource, htarget, hsizes, hbytes⟩
  · exact ⟨v', by rw [bitcast, if_pos rfl], hle⟩
  · have hpoison : machine.bytesOf v' source = .ok none →
        ∃ d', machine.bitcast source v' target = .ok d' ∧ d'.LessDefined d := fun hnone =>
      ⟨.poison target, bitcast_eq_poison hne hsource htarget hsizes hnone, .poison hd⟩
    rcases hbytes with ⟨hnone, rfl⟩ | ⟨bytes, hbytes, hbuilt⟩
    · exact hpoison ((bytesOf_lessDefined hle hnone).elim id id)
    · rcases bytesOf_lessDefined hle hbytes with hnone | hsame
      · exact hpoison hnone
      · refine ⟨d, ?_, .refl d⟩
        rw [bitcast_eq_ofBytes hne hsource htarget hsizes hsame, hbuilt]

end Machine

/-- Whether the instructions give less defined results for less defined operands. -/
structure InstructionSet.Monotone (instructions : InstructionSet) : Prop where
  /-- an operation on operands that are less defined and not poison -/
  binary : ∀ {op v' v w' w t d}, v.HasTy t → v'.HasTy t → w.HasTy t → w'.HasTy t →
    v'.LessDefined v → w'.LessDefined w → poisonOperand? v' w' = none →
    instructions.binary op v w = .ok d →
    ∃ d', instructions.binary op v' w' = .ok d' ∧ d'.LessDefined d
  /-- a conversion of a value that is less defined and not poison -/
  convert : ∀ {cast source v' v target d}, v.HasTy source → v'.HasTy source → v'.LessDefined v →
    v'.isPoison = false → instructions.convert cast source v target = .ok d →
    ∃ d', instructions.convert cast source v' target = .ok d' ∧ d'.LessDefined d

/-- The standard instructions are monotone. Each goes lane by lane, so this is seen of one lane at a
time. -/
theorem InstructionSet.monotone_standard (bits : Nat) :
    (InstructionSet.standard bits).Monotone where
  binary hv hv' hw hw' hvle hwle hpoison h :=
    BinaryOp.onLanes_lessDefined hv hv' hw hw' hvle hwle hpoison h
  convert hv hv' hle hpoison h := Cast.onLanes_lessDefined hv hv' hle hpoison h

namespace Machine

variable {machine : Machine} {decide : SymValue → Outcome Value}

theorem convert_lessDefined (hmono : machine.instructions.Monotone) {cast : Cast}
    {source target : Ty} {v' v d : Value} (hv : v.HasTy source) (hv' : v'.HasTy source)
    (hle : v'.LessDefined v) (hpoison : v'.isPoison = false)
    (h : machine.convert cast source v target = .ok d) :
    ∃ d', machine.convert cast source v' target = .ok d' ∧ d'.LessDefined d := by
  cases cast with
  | bitcast => exact bitcast_lessDefined hv hle h
  | ptrtoint => exact castPointers_lessDefined hv hv' hle hpoison h
  | inttoptr => exact castPointers_lessDefined hv hv' hle hpoison h
  | addrspacecast => exact castPointers_lessDefined hv hv' hle hpoison h
  | _ => exact hmono.convert hv hv' hle hpoison h

/-! ## The walk -/

/-- Whether a walk decides less defined values as less defined ones, wherever it decides. -/
def Monotone (decide : SymValue → Outcome Value) : Prop :=
  ∀ {v' v : SymValue} {t : Ty} {d : Value}, v'.LessDefined v t → decide v = .ok d →
    ∃ d', decide v' = .ok d' ∧ d'.LessDefined d

theorem Monotone.members (hd : Monotone decide) {vs' vs : List SymValue} {ts : List Ty}
    (h : SymValue.LessDefinedAll vs' vs ts) {ds : List Value}
    (hds : List.Forall₂ (fun v d => decide v = .ok d) vs ds) :
    List.Forall₂ (fun v' d => ∃ d', decide v' = .ok d' ∧ d'.LessDefined d) vs' ds := by
  induction ds generalizing vs' vs ts with
  | nil =>
    cases hds
    cases h
    exact .nil
  | cons d ds ih =>
    cases hds with
    | cons hv hvs =>
      cases h with
      | cons hle hrest => exact .cons (hd hle hv) (ih hrest hvs)

/-- One level is monotone if those below it are, by a case for each kind of symbolic value that the
relation is about. -/
theorem Monotone.concretizeBy (hinstructions : machine.instructions.RespectsTypes)
    (hmono : machine.instructions.Monotone) (htypes : KeepsTypes decide) (hd : Monotone decide) :
    Monotone (machine.concretizeBy decide) := by
  intro v' v t d hle h
  have hdty := KeepsTypes.concretizeBy hinstructions htypes hle.hasTy.2 h
  cases hle with
  | poison hv => exact ⟨.poison t, rfl, .poison hdty⟩
  | scalar s => exact ⟨d, h, .refl d⟩
  | undef ty => exact ⟨d, h, .refl d⟩
  | void => exact ⟨d, h, .refl d⟩
  | aggregate hkind hmembers =>
    obtain ⟨ds, hds, rfl⟩ := Outcome.map_eq_ok.1 h
    exact Value.exists_lessDefined_of_mapM (hd.members hmembers (Outcome.mapM_eq_ok.1 hds))
  | @binary op left' left right' right ty hleft hright =>
    obtain ⟨l, r, hl, hr, h⟩ := concretizeBy_binary_inv h
    obtain ⟨l', hl', hlle⟩ := hd hleft hl
    obtain ⟨r', hr', hrle⟩ := hd hright hr
    have hlty' := htypes hleft.hasTy.1 hl'
    have hrty' := htypes hright.hasTy.1 hr'
    simp only [Machine.concretizeBy, hl', hr', Outcome.ok_bind]
    cases hpoison : poisonOperand? l' r' with
    | some u =>
      obtain rfl := poisonOperand?_eq hlty' hrty' hpoison
      exact ⟨_, rfl, .poison (op.poisonTy_eq_resultTy u ▸ hdty)⟩
    | none =>
      -- where no operand is poison now, none was before
      obtain ⟨hlpoison, hrpoison⟩ := poisonOperand?_eq_none_iff.1 hpoison
      rcases h with ⟨u, hu, -⟩ | ⟨-, h⟩
      · have hnone := poisonOperand?_eq_none_iff.2
          ⟨hlle.isPoison_eq_false hlpoison, hrle.isPoison_eq_false hrpoison⟩
        cases hu.symm.trans hnone
      · exact hmono.binary (htypes hleft.hasTy.2 hl) hlty' (htypes hright.hasTy.2 hr) hrty' hlle
          hrle hpoison h
  | cast op target hvalue =>
    obtain ⟨w, hw, h⟩ := concretizeBy_cast_inv h
    obtain ⟨w', hw', hle⟩ := hd hvalue hw
    simp only [Machine.concretizeBy, hw', Outcome.ok_bind]
    cases hpoison : w'.isPoison with
    | true => exact ⟨.poison t, rfl, .poison hdty⟩
    | false =>
      rcases h with ⟨hwpoison, -⟩ | ⟨-, h⟩
      · rw [hle.isPoison_eq_false hpoison] at hwpoison
        cases hwpoison
      · exact convert_lessDefined hmono (htypes hvalue.hasTy.2 hw) (htypes hvalue.hasTy.1 hw') hle
          hpoison h
  | extract hwhole hpath =>
    obtain ⟨w, hw, h⟩ := Outcome.bind_eq_ok.1 h
    obtain ⟨w', hw', hle⟩ := hd hwhole hw
    simp only [Machine.concretizeBy, hw', Outcome.ok_bind]
    exact hle.extractPath (htypes hwhole.hasTy.2 hw) (htypes hwhole.hasTy.1 hw') hpath h
  | insert hwhole hpath helement =>
    obtain ⟨w, e, hw, he, h⟩ := concretizeBy_insert_inv h
    obtain ⟨w', hw', hle⟩ := hd hwhole hw
    obtain ⟨e', he', hele⟩ := hd helement he
    simp only [Machine.concretizeBy, hw', he', Outcome.ok_bind]
    exact hle.insertPath (htypes hwhole.hasTy.2 hw) (htypes hwhole.hasTy.1 hw') hpath hele h

/-- Deciding a value that is less defined gives a value that is less defined, with as many levels.
Fewer may do, since poison waits for nothing. -/
theorem monotone_concretizeWithin (hinstructions : machine.instructions.RespectsTypes)
    (hmono : machine.instructions.Monotone) (levels : Nat) :
    Monotone (machine.concretizeWithin levels) := by
  induction levels with
  | zero =>
    intro v' v t d _ h
    cases h
  | succ levels ih =>
    exact Monotone.concretizeBy hinstructions hmono
      (keepsTypes_concretizeWithin hinstructions levels) ih

/-- More poison in a value never makes it a fault, and never makes what is decided more defined. So
a value that is decided stays decided if less becomes known of its parts. -/
theorem exists_concretize_lessDefined (target : Target) {v' v : SymValue} {t : Ty}
    (hle : v'.LessDefined v t) {d : Value} (h : (standard target).concretize v = .ok d) :
    ∃ d', (standard target).concretize v' = .ok d' ∧ d'.HasTy t ∧ d'.LessDefined d := by
  have hinstructions := InstructionSet.respectsTypes_standard target.pointerBits
  obtain ⟨d', hd', hle'⟩ := monotone_concretizeWithin hinstructions
    (InstructionSet.monotone_standard _) (depthLimit + 1) hle h
  exact ⟨d', hd', keepsTypes_concretizeWithin hinstructions _ hle.hasTy.1 hd', hle'⟩

/-- Four lanes that are read as one integer, and beside it the lanes added to themselves. -/
def packedLanes (first : SymValue) : SymValue :=
  let lanes := .aggregate (.sequence .vector)
    (first :: List.replicate 3 (.scalar (.int ⟨.i8, 2⟩)))
  .aggregate (.record .struct)
    [.cast .bitcast (.vector 4 (.int 8)) lanes (.int 32),
      .binary (.int (.add false false)) lanes lanes]

/-- Poison in the first lane is poison as one integer, and poison in one lane of the sum. -/
theorem concretize_packedLanes :
    (packedLanes (.poison (.int 8))).LessDefined (packedLanes (.scalar (.int ⟨.i8, 1⟩)))
        (.record .struct [.int 32, .vector 4 (.int 8)]) ∧
      ∃ d d', (standard .standard).concretize (packedLanes (.scalar (.int ⟨.i8, 1⟩))) = .ok d ∧
        (standard .standard).concretize (packedLanes (.poison (.int 8))) = .ok d' ∧
        d'.HasTy (.record .struct [.int 32, .vector 4 (.int 8)]) ∧ d'.LessDefined d := by
  have hlane := SymValue.LessDefined.scalar (.int ⟨.i8, 2⟩)
  have hfirst : SymValue.LessDefined (.poison (.int 8)) (.scalar (.int ⟨.i8, 1⟩)) (.int 8) :=
    .poison (.scalar _)
  have hlanes : SymValue.LessDefined
      (.aggregate (.sequence .vector)
        (.poison (.int 8) :: List.replicate 3 (.scalar (.int ⟨.i8, 2⟩))))
      (.aggregate (.sequence .vector)
        (.scalar (.int ⟨.i8, 1⟩) :: List.replicate 3 (.scalar (.int ⟨.i8, 2⟩))))
      (.vector 4 (.int 8)) :=
    .aggregate rfl (.cons hfirst (.cons hlane (.cons hlane (.cons hlane .nil))))
  have hle : (packedLanes (.poison (.int 8))).LessDefined (packedLanes (.scalar (.int ⟨.i8, 1⟩)))
      (.record .struct [.int 32, .vector 4 (.int 8)]) :=
    .aggregate rfl (.cons (.cast .bitcast (.int 32) hlanes)
      (.cons (.binary (.int (.add false false)) hlanes hlanes) .nil))
  have hd : (standard .standard).concretize (packedLanes (.scalar (.int ⟨.i8, 1⟩))) =
      .ok (.aggregate (.record .struct) [.int ⟨.i32, 0x02020201⟩,
        .vector (.int ⟨.i8, 2⟩ :: List.replicate 3 (.int ⟨.i8, 4⟩))]) := rfl
  obtain ⟨d', hd', hty, hle'⟩ := exists_concretize_lessDefined .standard hle hd
  exact ⟨hle, _, d', hd, hd', hty, hle'⟩

end Machine

end SymbolicBytes
