import SymbolicBytes.Proofs.LaneWise
import SymbolicBytes.Proofs.ValuelessTypes
/-!
# Conversions into types without values

What becomes of a conversion whose target type has no values. A bitcast is refused for the type. No
other conversion looks at the type as a whole: most are refused as malformed or as a conversion that
does not apply, and some go through, namely those of which nothing but poison is left
(`Machine.castsToValueless`).

That is so for a float whose integer part is beyond the bounds of the integer type, and for vectors
of which every lane is poison or such a float (`Cast.MakesPoison`). What goes through has no scalar
in it, so that no number is ever approximated.
-/

namespace SymbolicBytes

/-! ## Conversions that leave poison -/

/-- A float as a float of the double format. -/
def Value.asDouble? : Value → Option (FloatBits .double)
  | .float x => some (FloatFormat.convert .double x)
  | .double x => some x
  | _ => none

/-- Whether the integer part of a float is within the bounds of integers of a width. The bounds are
powers of two as doubles, and the exponent of a bound is a signed 32-bit number. -/
def integerPartFits (twosComplement : Bool) (x : FloatBits .double) (width : Nat) : Bool :=
  let high := FloatFormat.powerOfTwo
    (wrapSigned 32 (if twosComplement then wrapSigned 32 width - 1 else width))
  let low := if twosComplement then FloatFormat.neg high else FloatFormat.zero .double false
  FloatFormat.atMost low (FloatFormat.truncate x) && FloatFormat.less (FloatFormat.truncate x) high

namespace Cast

/-- Whether the conversion cuts a float to an integer, of which the integer part is beyond the
bounds of integers of a width. -/
def LeavesRange (op : Cast) (v : Value) (width : Nat) : Prop :=
  ∃ x, v.asDouble? = some x ∧
    (op = .fptoui ∧ integerPartFits false x width = false ∨
      op = .fptosi ∧ integerPartFits true x width = false)

/-- Whether a conversion makes nothing but poison of a value: of a float out of range, or of each
lane of a vector. -/
def MakesPoison (op : Cast) : Ty → Value → Ty → Prop
  | .vector _ source, .vector vs, .vector count target =>
    vs.length = count ∧ ∀ v ∈ vs, v.isPoison = true ∨ MakesPoison op source v target
  | _, v, .int width => op.LeavesRange v width
  | _, _, _ => False

/-- Whether the conversion is one between pointers and integers, or of pointers. -/
def onPointers : Cast → Bool
  | ptrtoint | inttoptr | addrspacecast => true
  | _ => false

/-- The sorts of faults of a conversion into a type without values, bitcasts aside. -/
def Faults (op : Cast) (kind : FaultKind) : Prop :=
  kind = .structural ∨ kind = .evaluation ∧ op.onPointers = false

variable {op : Cast} {source target : Ty} {v : Value}

theorem makesPoison_of_not_vector
    (h : ∀ n s vs count u,
      source = .vector n s → v = .vector vs → target = .vector count u → False) :
    op.MakesPoison source v target ↔ ∃ width, target = .int width ∧ op.LeavesRange v width := by
  unfold MakesPoison
  split
  · exact absurd rfl fun heq => h _ _ _ _ _ rfl heq rfl
  · simp
  · rename_i hint _
    refine iff_of_false id ?_
    rintro ⟨width, rfl, -⟩
    exact hint width rfl

end Cast

/-- Whether an outcome is a value without scalars under a condition, and a fault of one of these
sorts otherwise. -/
structure LeavesPoison (p : Prop) (sorts : FaultKind → Prop) (x : Outcome Value) : Prop where
  /-- there is a value exactly under the condition -/
  ok_iff : (∃ d, x = .ok d) ↔ p
  /-- there is no scalar in the value -/
  noScalars : ∀ d, x = .ok d → d.ScalarsIn fun _ => False
  /-- a fault is of one of the sorts -/
  sort : ∀ fault, x = .error fault → sorts fault.kind

section LeavesPoison

variable {p : Prop} {sorts : FaultKind → Prop}

theorem leavesPoison_ok {d : Value} (hp : p) (hd : d.ScalarsIn fun _ => False) :
    LeavesPoison p sorts (.ok d) where
  ok_iff := iff_of_true ⟨d, rfl⟩ hp
  noScalars := by
    rintro _ ⟨⟩
    exact hd
  sort := nofun

theorem leavesPoison_error {fault : Fault} (hp : ¬ p) (hkind : sorts fault.kind) :
    LeavesPoison p sorts (.error fault) where
  ok_iff := iff_of_false nofun hp
  noScalars := nofun
  sort := by
    rintro _ ⟨⟩
    exact hkind

/-- A lane leaves poison if it is poison, or if what it is converted to is. -/
theorem LeavesPoison.castLane {target : Ty} {f : Value → Outcome Value} {v : Value}
    (h : LeavesPoison p sorts (f v)) :
    LeavesPoison (v.isPoison = true ∨ p) sorts (castLane target f v) := by
  cases v with
  | poison t => exact leavesPoison_ok (.inl rfl) (Value.scalarsIn_poison target)
  | _ => exact ⟨h.ok_iff.trans (by simp [Value.isPoison]), h.noScalars, h.sort⟩

/-- A vector leaves poison if every lane does. Its fault is that of a lane. -/
theorem leavesPoison_vector {P : Value → Prop} {f : Value → Outcome Value} {vs : List Value}
    (h : ∀ v ∈ vs, LeavesPoison (P v) sorts (f v)) :
    LeavesPoison (∀ v ∈ vs, P v) sorts (Value.vector <$> vs.mapM f) where
  ok_iff := by
    constructor
    · rintro ⟨d, hd⟩ v hv
      obtain ⟨ds, hds, -⟩ := Outcome.map_eq_ok.1 hd
      obtain ⟨e, -, he⟩ := exists_mem_of_forall₂ (Outcome.mapM_eq_ok.1 hds) hv
      exact (h v hv).ok_iff.1 ⟨e, he⟩
    · intro hall
      obtain ⟨ds, hds⟩ := Outcome.exists_mapM_eq_ok fun v hv => (h v hv).ok_iff.2 (hall v hv)
      exact ⟨.vector ds, Outcome.map_eq_ok.2 ⟨ds, hds, rfl⟩⟩
  noScalars := by
    intro d hd
    obtain ⟨ds, hds, rfl⟩ := Outcome.map_eq_ok.1 hd
    rw [Value.scalarsIn_aggregate]
    intro e he
    obtain ⟨v, hv, hve⟩ := exists_mem_of_forall₂ (Outcome.mapM_eq_ok.1 hds).flip he
    exact (h v hv).noScalars e hve
  sort := by
    intro fault hfault
    obtain ⟨v, hv, hlane⟩ := Outcome.mapM_eq_error (Outcome.map_eq_error.1 hfault)
    exact (h v hv).sort fault hlane

end LeavesPoison

/-! ## Conversions of values -/

theorem floatToInteger_int {twosComplement : Bool} {x : FloatBits .double} {width : Nat} :
    floatToInteger twosComplement x (.int width) =
      if integerPartFits twosComplement x width then
        fixedWidth width (FloatFormat.toInt (FloatFormat.truncate x))
      else .ok (.poison (.int width)) := rfl

/-- There is no integer of a width without values, so a conversion that would make one is a fault.
-/
theorem ofInt?_eq_none {width : Nat} (h : ¬ (Ty.int width).Supported) (int : Int) :
    FixedInt.ofInt? width int = none := by
  rw [FixedInt.ofInt?, Option.map_eq_none_iff, Option.eq_none_iff_forall_ne_some]
  intro w hw
  exact h (Ty.supported_int_iff.2 ⟨w, hw⟩)

theorem fixedWidth_eq_error {width : Nat} (h : ¬ (Ty.int width).Supported) (int : Int) :
    fixedWidth width int = .error (.noIntegerWidth width) := by
  rw [fixedWidth, ofInt?_eq_none h]

section

variable {op : Cast} {source target : Ty} {v : Value} (htarget : ¬ target.Supported)

include htarget

/-- A float is cut to poison where its integer part is out of range, and to nothing else. The range
is looked at before the width is, so the width of an integer that is never made goes unnoticed. -/
theorem leavesPoison_floatToInteger {twosComplement : Bool} {x : FloatBits .double}
    (hv : v.asDouble? = some x) (hop : op = if twosComplement then .fptosi else .fptoui) :
    LeavesPoison (∃ width, target = .int width ∧ op.LeavesRange v width) op.Faults
      (floatToInteger twosComplement x target) := by
  have hrange : ∀ width,
      op.LeavesRange v width ↔ integerPartFits twosComplement x width = false := by
    intro width
    cases twosComplement <;> simp [Cast.LeavesRange, hv, hop]
  have hvalues : op.onPointers = false := by
    cases twosComplement <;> simp [hop, Cast.onPointers]
  cases target with
  | int width =>
    rw [floatToInteger_int]
    cases hfits : integerPartFits twosComplement x width with
    | true =>
      rw [if_pos rfl, fixedWidth_eq_error htarget]
      refine leavesPoison_error ?_ (.inl rfl)
      simp [hrange, hfits]
    | false =>
      rw [if_neg Bool.false_ne_true]
      exact leavesPoison_ok ⟨width, rfl, (hrange width).2 hfits⟩ (Value.scalarsIn_poison _)
  | _ => exact leavesPoison_error nofun (.inr ⟨rfl, hvalues⟩)

/-- A conversion of a value that is no vector leaves poison of a float that is out of range, and has
a fault otherwise. -/
theorem leavesPoison_onScalar (hop : op.onPointers = false) (bits : Nat) :
    LeavesPoison (∃ width, target = .int width ∧ op.LeavesRange v width) op.Faults
      (op.onScalar bits v target) := by
  by_cases hfloat : ∃ x, v.asDouble? = some x ∧ (op = .fptoui ∨ op = .fptosi)
  · obtain ⟨x, hx, hcast⟩ := hfloat
    have hconvert : op.onScalar bits v target = floatToInteger (op == .fptosi) x target := by
      unfold Value.asDouble? at hx
      split at hx <;> cases hx <;> rcases hcast with rfl | rfl <;> rfl
    rw [hconvert]
    apply leavesPoison_floatToInteger htarget hx
    rcases hcast with rfl | rfl <;> rfl
  · have hnot : ¬ ∃ width, target = .int width ∧ op.LeavesRange v width := by
      rintro ⟨width, -, x, hx, hcast⟩
      exact hfloat ⟨x, hx, hcast.imp And.left And.left⟩
    unfold Cast.onScalar
    split
    -- integers are made of no width without values
    case h_1 | h_2 | h_3 | h_6 =>
      rw [fixedWidth_eq_error htarget]
      exact leavesPoison_error hnot (.inl rfl)
    all_goals first
      | exact absurd rfl htarget
      | exact absurd ⟨_, rfl, .inl rfl⟩ hfloat
      | exact absurd ⟨_, rfl, .inr rfl⟩ hfloat
      | exact leavesPoison_error hnot (.inr ⟨rfl, hop⟩)

theorem leavesPoison_onLanes (hop : op.onPointers = false) (bits : Nat) :
    LeavesPoison (op.MakesPoison source v target) op.Faults (op.onLanes bits source v target) := by
  fun_induction Cast.onLanes bits op source v target with
  | case1 n source vs target ih =>
    rw [Cast.MakesPoison]
    simp only [true_and]
    rw [Ty.supported_sequence_iff] at htarget
    exact leavesPoison_vector fun v _ => (ih v htarget).castLane
  | case2 n source vs count target hlen =>
    refine leavesPoison_error ?_ (.inr ⟨rfl, hop⟩)
    rw [Cast.MakesPoison]
    exact fun h => hlen h.1
  | case3 source v target hnot =>
    rw [Cast.makesPoison_of_not_vector hnot]
    exact leavesPoison_onScalar htarget hop bits

/-! ## Conversions of pointers -/

/-- Neither a pointer nor an integer is converted into a type without values. -/
theorem exists_castPointer_eq_error (machine : Machine) :
    ∃ fault, machine.castPointer op v target = .error fault ∧ fault.kind = .structural := by
  unfold Machine.castPointer
  split
  case h_2 =>
    simp only [ofInt?_eq_none htarget]
    exact ⟨_, rfl, rfl⟩
  case h_6 => exact ⟨_, rfl, rfl⟩
  all_goals exact absurd rfl htarget

theorem leavesPoison_castPointers (hop : op.onPointers = true) (machine : Machine) :
    LeavesPoison (op.MakesPoison source v target) op.Faults
      (machine.castPointers op source v target) := by
  have hrange : ∀ v width, ¬ op.LeavesRange v width := by
    rintro v width ⟨x, -, ⟨rfl, -⟩ | ⟨rfl, -⟩⟩ <;> cases hop
  fun_induction Machine.castPointers machine op source v target with
  | case1 n source vs target ih =>
    rw [Cast.MakesPoison]
    simp only [true_and]
    rw [Ty.supported_sequence_iff] at htarget
    exact leavesPoison_vector fun v _ => (ih v htarget).castLane
  | case2 n source vs count target hlen =>
    refine leavesPoison_error ?_ (.inl rfl)
    rw [Cast.MakesPoison]
    exact fun h => hlen h.1
  | case3 source vs count target hnot =>
    refine leavesPoison_error ?_ (.inl rfl)
    rw [Cast.makesPoison_of_not_vector fun n s ws _ _ hsource _ _ => hnot n s hsource]
    rintro ⟨width, hwidth, -⟩
    cases hwidth
  | case4 source v target hnot =>
    obtain ⟨fault, hfault, hkind⟩ : ∃ fault,
        machine.castPointer op v target = .error fault ∧ fault.kind = .structural :=
      exists_castPointer_eq_error htarget machine
    rw [hfault, Cast.makesPoison_of_not_vector fun _ _ vs count u _ => hnot vs count u]
    refine leavesPoison_error ?_ (.inl hkind)
    rintro ⟨width, -, hleaves⟩
    exact hrange v width hleaves

/-! ## All conversions -/

/-- Every conversion but a bitcast leaves poison in a type without values, or has a fault that is
not about the type. -/
theorem leavesPoison_convert (hop : op ≠ .bitcast) (tgt : Target) :
    LeavesPoison (op.MakesPoison source v target) op.Faults
      ((Machine.standard tgt).convert op source v target) := by
  cases op with
  | bitcast => exact absurd rfl hop
  | ptrtoint | inttoptr | addrspacecast => exact leavesPoison_castPointers htarget rfl _
  | _ => exact leavesPoison_onLanes htarget rfl _

/-- A bitcast looks at both types before anything else, as it has to size them. -/
theorem failsAs_bitcast (machine : Machine) (hne : source ≠ target) :
    Outcome.FailsAs .unsupported (machine.bitcast source v target) := by
  rw [Machine.bitcast, if_neg hne]
  by_cases hsource : source.Supported
  · rw [(Ty.checkSupported_eq_ok_iff source).2 hsource]
    exact (Ty.valueless_iff.2 htarget).failsAs_bind _
  · exact (Ty.valueless_iff.2 hsource).failsAs_bind _

end

namespace Machine

/-- What holds of a conversion of a decided value into a type without values. -/
structure CastsToValueless (tgt : Target) (op : Cast) (source target : Ty) (value : SymValue)
    (v : Value) : Prop where
  /-- a bitcast is refused for the type, and no other conversion is -/
  unsupported : Outcome.FailsAs .unsupported
      ((standard tgt).concretize (.cast op source value target)) ↔ op = .bitcast
  /-- a bitcast has no other outcome -/
  bitcast : op = .bitcast → ∀ d, (standard tgt).concretize (.cast op source value target) ≠ .ok d
  /-- another conversion that is refused is malformed or does not apply; one of pointers is
  malformed -/
  fault : op ≠ .bitcast → ∀ fault,
    (standard tgt).concretize (.cast op source value target) = .error fault →
      fault.kind = .structural ∨ fault.kind = .evaluation ∧ op.onPointers = false
  /-- another conversion goes through exactly if it makes nothing but poison of the value -/
  ok_iff : op ≠ .bitcast →
    ((∃ d, (standard tgt).concretize (.cast op source value target) = .ok d) ↔
      op.MakesPoison source v target)
  /-- there is no scalar in what goes through -/
  noScalars : ∀ d, (standard tgt).concretize (.cast op source value target) = .ok d →
    d.ScalarsIn fun _ => False

/-- Of the conversions of a value that is not poison into another type, which has no values, exactly
the bitcasts are refused for the type, and no other makes more than poison. Which others go through
is told by `Cast.MakesPoison`, and the faults of the rest by `Cast.Faults`. -/
theorem castsToValueless {tgt : Target} {op : Cast} {source target : Ty} {value : SymValue}
    {v : Value} (hv : (standard tgt).concretize value = .ok v) (hpoison : v.isPoison = false)
    (hne : source ≠ target) (htarget : ¬ target.Supported)
    (hdeep : (standard tgt).concretize (.cast op source value target) ≠ .error .tooDeep) :
    CastsToValueless tgt op source target value v := by
  have hconvert : (standard tgt).concretize (.cast op source value target) =
      (standard tgt).convert op source v target := by
    rw [concretize_cast hv hdeep, castTo_eq_convert hpoison]
  by_cases hop : op = .bitcast
  · subst hop
    have hfails : Outcome.FailsAs .unsupported
        ((standard tgt).concretize (.cast .bitcast source value target)) := by
      rw [hconvert]
      exact failsAs_bitcast htarget (standard tgt) hne
    obtain ⟨fault, hfault, -⟩ := id hfails
    have hnone : ∀ d, (standard tgt).concretize (.cast .bitcast source value target) ≠ .ok d := by
      intro d hd
      cases hd.symm.trans hfault
    exact
      { unsupported := iff_of_true hfails rfl
        bitcast := fun _ => hnone
        fault := absurd rfl
        ok_iff := absurd rfl
        noScalars := fun d hd => absurd hd (hnone d) }
  · have hleaves : LeavesPoison (op.MakesPoison source v target) op.Faults
        ((standard tgt).concretize (.cast op source value target)) := by
      rw [hconvert]
      exact leavesPoison_convert htarget hop tgt
    refine
      { unsupported := iff_of_false ?_ hop
        bitcast := fun h => absurd h hop
        fault := fun _ => hleaves.sort
        ok_iff := fun _ => hleaves.ok_iff
        noScalars := hleaves.noScalars }
    -- no other conversion has a fault that is about the type
    rintro ⟨fault, hfault, hkind⟩
    have hsort := hleaves.sort fault hfault
    simp [Cast.Faults, hkind] at hsort

/-- Infinity beside poison. -/
def unbounded : SymValue :=
  .aggregate (.sequence .vector) [.scalar (.double 0x7ff0000000000000), .poison (.float .double)]

/-- Infinity is out of the range of every width, so with poison beside it a vector of a type without
values is made. -/
theorem castsToValueless_unbounded :
    let source : Ty := .vector 2 (.float .double)
    let target : Ty := .vector 2 (.int 16)
    let v : Value := .vector [.double 0x7ff0000000000000, .poison (.float .double)]
    let cast := SymValue.cast .fptosi source unbounded target
    (standard .standard).concretize unbounded = .ok v ∧ v.isPoison = false ∧ source ≠ target ∧
      ¬ target.Supported ∧ (standard .standard).concretize cast ≠ .error .tooDeep ∧
      CastsToValueless .standard .fptosi source target unbounded v ∧
      Cast.fptosi.MakesPoison source v target := by
  intro source target v cast
  have hcast : (standard .standard).concretize cast =
      .ok (.vector [.poison (.int 16), .poison (.int 16)]) := rfl
  have hdeep : (standard .standard).concretize cast ≠ .error .tooDeep := by
    rw [hcast]
    exact nofun
  have hcasts := castsToValueless (v := v) rfl rfl (by decide) (by decide) hdeep
  exact ⟨rfl, rfl, by decide, by decide, hdeep, hcasts, (hcasts.ok_iff nofun).1 ⟨_, hcast⟩⟩

/-- Conversions into 16-bit integers and half floats are refused as malformed or as conversions that
do not apply, or they go through. -/
theorem concretize_casts_valueless :
    let machine := standard .standard
    ¬ (Ty.int 16).Supported ∧ ¬ (Ty.float .half).Supported ∧
      Outcome.FailsAs .structural
        (machine.concretize (.cast .trunc (.int 32) (.scalar (.int ⟨.i32, 5⟩)) (.int 16))) ∧
      Outcome.FailsAs .evaluation
        (machine.concretize
          (.cast .zext (.int 8) (.scalar (.int ⟨.i8, 1⟩)) (.float .half))) ∧
      machine.concretize
          (.cast .fptoui (.float .double) (.scalar (.double 0x7ff0000000000000)) (.int 16)) =
        .ok (.poison (.int 16)) :=
  ⟨by decide, by decide, ⟨_, rfl, rfl⟩, ⟨_, rfl, rfl⟩, rfl⟩

end Machine

end SymbolicBytes
