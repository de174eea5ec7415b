import SymbolicBytes.Proofs.Levels
import SymbolicBytes.Proofs.RoundTrip
import SymbolicBytes.Proofs.SymParts
import SymbolicBytes.Proofs.Typing
/-!
# Scalars inside decided values

Which scalars deciding a value can bring about. A property that the single operations keep
(`Machine.KeepsScalars`) holds of all scalars inside whatever is decided, if it holds of those that
are written out in the value (`scalarsIn_concretizeWithin`). Conversions may ask more of what they
are applied to; this is then asked of the decided operand of every conversion inside the value.

Pointer-sized integers between zero and the largest pointer are a property that is kept without more
(`keepsScalars_canonical`), so every one that is decided is in this range, whatever was written.
Properties that say nothing but this range and something about addresses (`Target.Allows`) are kept
by the operations and conversions of the standard instructions.
-/

namespace SymbolicBytes

/-! ## Parts of values -/

namespace Value

variable {P : Scalar → Prop}

/-- What holds of the scalars inside a value holds of those inside its parts. -/
theorem ScalarsIn.extractPath {v d : Value} {path : List Nat} (hv : v.ScalarsIn P)
    (h : v.extractPath path = .ok d) : d.ScalarsIn P := by
  induction path generalizing v with
  | nil =>
    rw [extractPath_nil] at h
    obtain rfl := Except.ok.inj h
    exact hv
  | cons index path ih =>
    rcases Value.extractPath_inv h with ⟨ty, part, -, -, rfl⟩ | ⟨kind, members, part, rfl, hpart, h⟩
    · exact scalarsIn_poison part
    · exact ih (scalarsIn_aggregate.1 hv part (List.mem_of_getElem? hpart)) h

theorem ScalarsIn.spellOut {v d : Value} (hv : v.ScalarsIn P) (h : v.spellOut = .ok d) :
    d.ScalarsIn P := by
  rcases Value.spellOut_inv h with ⟨ty, kind, -, -, rfl⟩ | ⟨-, rfl⟩
  · refine scalarsIn_aggregate.2 ?_
    intro m hm
    obtain ⟨u, -, rfl⟩ := List.mem_map.1 hm
    exact scalarsIn_poison u
  · exact hv

/-- What holds of the scalars inside a value and of those inside its new part holds after the
replacement, as poison that is spelled out brings none. -/
theorem ScalarsIn.insertPath {v element d : Value} {path : List Nat} (hv : v.ScalarsIn P)
    (he : element.ScalarsIn P) (h : v.insertPath path element = .ok d) : d.ScalarsIn P := by
  induction path generalizing v d with
  | nil =>
    rw [insertPath_nil] at h
    obtain rfl := Except.ok.inj h
    exact he
  | cons index path ih =>
    obtain ⟨kind, members, part, updated, hspell, hpart, hupdated, rfl⟩ := Value.insertPath_inv h
    have hmembers := scalarsIn_aggregate.1 (hv.spellOut hspell)
    refine scalarsIn_aggregate.2 ?_
    intro m hm
    rcases List.mem_or_eq_of_mem_set hm with hm | rfl
    · exact hmembers m hm
    · exact ih (hmembers part (List.mem_of_getElem? hpart)) hupdated

/-- What holds of every value that is computed holds of the aggregate of them. -/
theorem scalarsIn_of_mapM {α : Type} {f : α → Outcome Value} {items : List α}
    {kind : AggregateKind} (hf : ∀ item ∈ items, ∀ d, f item = .ok d → d.ScalarsIn P) {d : Value}
    (h : Value.aggregate kind <$> items.mapM f = .ok d) : d.ScalarsIn P := by
  obtain ⟨ds, hds, rfl⟩ := Outcome.map_eq_ok.1 h
  refine scalarsIn_aggregate.2 ?_
  intro d hd
  obtain ⟨item, hitem, hread⟩ := exists_mem_of_forall₂ (Outcome.mapM_eq_ok.1 hds).flip hd
  exact hf item hitem d hread

/-- What the lanes that are converted satisfy, the vector of them satisfies. Lanes that turn to
poison satisfy anything. -/
theorem scalarsIn_of_lanes {t : Ty} {vs ds : List Value}
    (hds : List.Forall₂ (fun _ d => d = .poison t ∨ d.ScalarsIn P) vs ds) :
    (Value.vector ds).ScalarsIn P := by
  refine scalarsIn_aggregate.2 ?_
  intro d hd
  obtain ⟨v, hmem, rfl | hkeep⟩ := exists_mem_of_forall₂ hds.flip hd
  · exact scalarsIn_poison t
  · exact hkeep

end Value

/-- Whether all scalars that are written out in the value satisfy a predicate, and all scalars that
a conversion inside it is applied to, once its operand is decided, the predicate for the
conversion. -/
def SymValue.ScalarsIn (decide : SymValue → Outcome Value) (P : Scalar → Prop)
    (Q : Cast → Scalar → Prop) (v : SymValue) : Prop :=
  v.AllParts fun
    | .scalar s => P s
    | .cast op _ value _ => ∀ e, decide value = .ok e → e.ScalarsIn (Q op)
    | _ => True

namespace Machine

variable {machine : Machine} {P : Scalar → Prop} {Q : Cast → Scalar → Prop}
  {decide : SymValue → Outcome Value}

/-- Whether the single operations of a machine keep a property `P` of scalars, where conversions are
applied to scalars with the property `Q` only. -/
structure KeepsScalars (machine : Machine) (P : Scalar → Prop) (Q : Cast → Scalar → Prop) :
    Prop where
  /-- zero values have it -/
  zero : ∀ s, machine.addresses.zeroValue s.ty = .ok (.scalar s) → P s
  /-- scalars that are built from bytes have it -/
  ofBytes : ∀ s bytes, machine.ofBytes s.ty bytes = .ok (.scalar s) → P s
  /-- operations keep it -/
  binary : ∀ {op v w d}, v.ScalarsIn P → w.ScalarsIn P →
    machine.instructions.binary op v w = .ok d → d.ScalarsIn P
  /-- conversions keep it -/
  convert : ∀ {cast source v target d}, v.ScalarsIn P → v.ScalarsIn (Q cast) →
    machine.instructions.convert cast source v target = .ok d → d.ScalarsIn P
  /-- conversions of pointers keep it -/
  castPointer : ∀ {cast v ty d}, v.ScalarsIn P → v.ScalarsIn (Q cast) →
    machine.castPointer cast v ty = .ok d → d.ScalarsIn P

namespace KeepsScalars

/-! ## Conversions -/

theorem castPointers (hP : machine.KeepsScalars P Q) {cast : Cast} {source target : Ty}
    {v d : Value} (hv : v.ScalarsIn P) (hcast : v.ScalarsIn (Q cast))
    (h : machine.castPointers cast source v target = .ok d) : d.ScalarsIn P := by
  refine castPointers_induction
    (motive := fun _ v _ d => v.ScalarsIn P → v.ScalarsIn (Q cast) → d.ScalarsIn P) ?_ ?_ h hv hcast
  · intro source v target d h hv hcast
    exact hP.castPointer hv hcast h
  · intro count source vs target ds hds hv hcast
    refine Value.scalarsIn_of_lanes (t := target) (forall₂_of_mem hds ?_)
    rintro v hmem d - (rfl | hkeep)
    · exact .inl rfl
    · exact .inr (hkeep (Value.scalarsIn_aggregate.1 hv v hmem)
        (Value.scalarsIn_aggregate.1 hcast v hmem))

theorem bitcast (hP : machine.KeepsScalars P Q) {source target : Ty} {v d : Value}
    (hv : v.ScalarsIn P) (h : machine.bitcast source v target = .ok d) : d.ScalarsIn P := by
  rcases bitcast_inv h with ⟨-, rfl⟩ | ⟨-, -, -, -, ⟨-, rfl⟩ | ⟨bytes, -, h⟩⟩
  · exact hv
  · exact Value.scalarsIn_poison target
  · exact scalarsIn_ofBytes hP.ofBytes h

theorem convertValue (hP : machine.KeepsScalars P Q) {cast : Cast} {source target : Ty}
    {v d : Value} (hv : v.ScalarsIn P) (hcast : v.ScalarsIn (Q cast))
    (h : machine.convert cast source v target = .ok d) : d.ScalarsIn P := by
  rcases convert_inv h with ⟨-, h⟩ | h | h
  · exact hP.bitcast hv h
  · exact hP.castPointers hv hcast h
  · exact hP.convert hv hcast h

end KeepsScalars

/-! ## Choices -/

theorem scalarsIn_selectLane {ifTrue cond t e d : Value} (ht : t.ScalarsIn P) (he : e.ScalarsIn P)
    (h : selectLane ifTrue cond t e = .ok d) : d.ScalarsIn P := by
  rcases selectLane_inv h with ⟨_, u, -, -, rfl⟩ | ⟨_, b, -, -, rfl⟩
  · exact Value.scalarsIn_poison u
  · cases b with
    | true => exact ht
    | false => exact he

theorem scalarsIn_of_members? {v : Value} (hv : v.ScalarsIn P) {members : List Value}
    (h : v.members? = some members) : ∀ m ∈ members, m.ScalarsIn P := by
  cases v with
  | aggregate kind vs =>
    obtain rfl := Option.some.inj h
    exact Value.scalarsIn_aggregate.1 hv
  | _ => cases h

theorem scalarsIn_selectVector {conds : List Value} {t e d : Value} (ht : t.ScalarsIn P)
    (he : e.ScalarsIn P) (h : selectVector conds t e = .ok d) : d.ScalarsIn P := by
  obtain ⟨ts, es, ds, hts, hes, htlen, helen, hds, rfl⟩ := selectVector_inv h
  refine Value.scalarsIn_aggregate.2 ?_
  intro d hd
  obtain ⟨c, -, t', ht', e', he', hlane⟩ := (selectLanes_inv htlen helen hds).2 d hd
  exact scalarsIn_selectLane (scalarsIn_of_members? ht hts t' ht')
    (scalarsIn_of_members? he hes e' he') hlane

theorem scalarsIn_selectBy {cond ifTrue ifFalse : SymValue}
    (htrue : ∀ d, decide ifTrue = .ok d → d.ScalarsIn P)
    (hfalse : ∀ d, decide ifFalse = .ok d → d.ScalarsIn P) {d : Value}
    (h : selectBy decide cond ifTrue ifFalse = .ok d) : d.ScalarsIn P := by
  obtain ⟨c, -, h⟩ := selectBy_inv h
  rcases h with ⟨_, b, -, -, h⟩ | ⟨_, v, u, -, -, -, rfl⟩ | ⟨conds, t, e, -, ht, he, h⟩
  · -- a truth value takes a branch
    cases b with
    | true => exact htrue d h
    | false => exact hfalse d h
  · -- of the first branch, only the type is used
    exact Value.scalarsIn_poison u
  · -- a vector of truth values takes lanes of both
    exact scalarsIn_selectVector (htrue t ht) (hfalse e he) h

/-! ## The walk -/

/-- The scalar that a scalar is decided as. -/
def decidedScalar (machine : Machine) : Scalar → Scalar
  | .iptr int => .iptr (wrapUnsigned machine.target.pointerBits int)
  | s => s

/-- What is asked of scalars that are built from bytes is enough for whatever bytes spell, without
regard to the parents of the bytes. -/
theorem scalarsIn_valueOfBytesBy (hP : machine.KeepsScalars P Q) {bytes : List SymByte} {ty : Ty}
    {d : Value} (h : machine.valueOfBytesBy decide bytes ty = .ok d) : d.ScalarsIn P := by
  obtain ⟨-, ⟨-, rfl⟩ | ⟨_, values, -, -, h⟩⟩ := valueOfBytesBy_inv h
  · exact Value.scalarsIn_poison ty
  · exact scalarsIn_ofBytes hP.ofBytes h

/-- One level keeps a property of scalars if those below it do. What conversions are applied to is
looked up in `decided`, a walk that decides all that this one does. -/
theorem KeepsScalars.concretizeBy (hP : machine.KeepsScalars P Q)
    {decided : SymValue → Outcome Value}
    (hdecided : ∀ {v e}, decide v = .ok e → decided v = .ok e)
    (hd : ∀ {v d}, v.ScalarsIn decided (fun s => P (machine.decidedScalar s)) Q →
      decide v = .ok d → d.ScalarsIn P)
    {v : SymValue} {d : Value} (hv : v.ScalarsIn decided (fun s => P (machine.decidedScalar s)) Q)
    (h : machine.concretizeBy decide v = .ok d) : d.ScalarsIn P := by
  cases v with
  | scalar s =>
    have hs := SymValue.allParts_scalar.1 hv
    cases s <;> cases h <;> exact Value.scalarsIn_scalar.2 hs
  | undef ty => exact AddressSpace.scalarsIn_zeroValue hP.zero h
  | poison ty =>
    cases h
    exact Value.scalarsIn_poison _
  | void =>
    cases h
    exact Value.scalarsIn_void
  | aggregate kind members =>
    have hmembers := (SymValue.allParts_aggregate.1 hv).2
    exact Value.scalarsIn_of_mapM (fun v hv d h => hd (hmembers v hv) h) h
  | binary op left right =>
    obtain ⟨-, hleft, hright⟩ := SymValue.allParts_binary.1 hv
    obtain ⟨l, r, hl, hr, ⟨u, -, rfl⟩ | ⟨-, h⟩⟩ := concretizeBy_binary_inv h
    · exact Value.scalarsIn_poison _
    · exact hP.binary (hd hleft hl) (hd hright hr) h
  | cast op source value target =>
    obtain ⟨w, hw, ⟨-, rfl⟩ | ⟨-, h⟩⟩ := concretizeBy_cast_inv h
    · exact Value.scalarsIn_poison target
    · obtain ⟨hcast, hvalue⟩ := SymValue.allParts_cast.1 hv
      exact hP.convertValue (hd hvalue hw) (hcast w (hdecided hw)) h
  | select cond ifTrue ifFalse =>
    obtain ⟨-, -, htrue, hfalse⟩ := SymValue.allParts_select.1 hv
    exact scalarsIn_selectBy (fun _ => hd htrue) (fun _ => hd hfalse) h
  | extract whole path =>
    obtain ⟨w, hw, h⟩ := Outcome.bind_eq_ok.1 h
    exact (hd (SymValue.allParts_extract.1 hv).2 hw).extractPath h
  | insert whole element path =>
    obtain ⟨-, hwhole, helement⟩ := SymValue.allParts_insert.1 hv
    obtain ⟨w, e, hw, he, h⟩ := concretizeBy_insert_inv h
    exact (hd hwhole hw).insertPath (hd helement he) h
  | byte b => cases h
  | concat bytes ty =>
    have hbytes := (SymValue.allParts_concat.1 hv).2
    obtain ⟨-, ⟨parent, hintact, h⟩ | ⟨-, h⟩⟩ := concretizeBy_concat_inv h
    · -- what is written out in the parent is written out in the bytes
      obtain ⟨first, rest, rfl, rfl, -, -⟩ := of_intactParent?_eq_some hintact
      exact hd (SymByte.allParts_iff.1 (hbytes first (List.mem_cons_self ..))).2.1 h
    · exact scalarsIn_valueOfBytesBy hP h

/-- A property that the operations keep holds of all scalars inside what is decided, if it holds of
those that are written out, as they are decided. What conversions are applied to may be decided with
more levels than the walk has left, so that it can be said once for the value as a whole. -/
theorem scalarsIn_concretizeWithin (hP : machine.KeepsScalars P Q) {levels top : Nat}
    (hle : levels ≤ top) {v : SymValue} {d : Value}
    (hv : v.ScalarsIn (machine.concretizeWithin top) (fun s => P (machine.decidedScalar s)) Q)
    (h : machine.concretizeWithin levels v = .ok d) : d.ScalarsIn P := by
  induction levels generalizing v d with
  | zero => cases h
  | succ levels ih =>
    exact hP.concretizeBy (concretizeWithin_eq_ok_of_le (Nat.le_of_succ_le hle))
      (ih (Nat.le_of_succ_le hle)) hv h

end Machine

/-! ## Pointer-sized integers -/

/-- Whether a scalar, if it is a pointer-sized integer, is one that a pointer can hold. -/
def Target.Canonical (target : Target) : Scalar → Prop
  | .iptr int => 0 ≤ int ∧ int < 2 ^ target.pointerBits
  | _ => True

namespace Target

variable {target : Target}

/-- An unsigned number of the width of pointers is one that a pointer can hold. -/
theorem canonical_iptr_toNat (bits : BitVec target.pointerBits) :
    target.Canonical (.iptr bits.toNat) :=
  ⟨Int.natCast_nonneg _, by exact_mod_cast bits.isLt⟩

/-- A scalar fits into its bytes if its number is one that a pointer can hold, be it an integer or
an address. -/
theorem fits_of_canonical {s : Scalar} (h : target.Canonical s)
    (haddress : ∀ a, s = .address a → a.bits.toNat < 2 ^ target.pointerBits) : target.Fits s := by
  cases s with
  | address a => exact haddress a rfl
  | iptr int => exact h
  | _ => trivial

theorem canonical_of_fits {s : Scalar} (h : target.Fits s) : target.Canonical s := by
  cases s with
  | iptr int => exact h
  | _ => trivial

end Target

/-! ## Standard instructions -/

section Standard

variable {target : Target} {P : Scalar → Prop}

/-- Whether a property of scalars says nothing but that pointer-sized integers are in range and
something about addresses. -/
def Target.Allows (target : Target) (P : Scalar → Prop) : Prop :=
  ∀ s, target.Canonical s → (∀ a, s ≠ .address a) → P s

namespace Target.Allows

variable (hP : target.Allows P)

include hP

theorem int (i : FixedInt) : (Value.int i).ScalarsIn P :=
  Value.scalarsIn_scalar.2 (hP _ trivial (by simp))

theorem iptr (bits : BitVec target.pointerBits) : (Value.iptr bits.toNat).ScalarsIn P :=
  Value.scalarsIn_scalar.2 (hP _ (Target.canonical_iptr_toNat bits) (by simp))

theorem float (x : FloatBits .single) : (Value.float x).ScalarsIn P :=
  Value.scalarsIn_scalar.2 (hP _ trivial (by simp))

theorem double (x : FloatBits .double) : (Value.double x).ScalarsIn P :=
  Value.scalarsIn_scalar.2 (hP _ trivial (by simp))

theorem onScalars {op : BinaryOp} {v w d : Value}
    (h : op.onScalars target.pointerBits v w = .ok d) : d.ScalarsIn P := by
  cases op with
  | int op =>
    rcases IntOp.onScalars_inv h with
      ⟨_, _, -, -, -, ⟨b, rfl⟩ | rfl⟩ | ⟨_, _, -, -, ⟨b, rfl⟩ | rfl⟩
    · exact hP.int _
    · exact Value.scalarsIn_poison _
    · exact hP.iptr b
    · exact Value.scalarsIn_poison _
  | intCmp pred =>
    obtain ⟨b, rfl⟩ := IntPred.onScalars_inv h
    exact hP.int _
  | float op =>
    rcases FloatOp.onScalars_inv h with ⟨_, _, -, -, rfl⟩ | ⟨_, _, -, -, rfl⟩
    · exact hP.float _
    · exact hP.double _
  | floatCmp pred =>
    obtain ⟨b, rfl⟩ := FloatPred.onScalars_inv h
    exact hP.int _

theorem onLanes {op : BinaryOp} {v w d : Value}
    (h : onLanes op.lanePoisonTy (op.onScalars target.pointerBits) v w = .ok d) :
    d.ScalarsIn P := by
  rcases onLanes_inv h with ⟨vs, ws, ds, -, -, -, rfl, hlanes⟩ | ⟨-, h⟩
  · refine Value.scalarsIn_aggregate.2 ?_
    intro d hd
    obtain ⟨lanes, -, ⟨t, -, rfl⟩ | hlane⟩ := exists_mem_of_forall₂ hlanes.flip hd
    · exact Value.scalarsIn_poison _
    · exact hP.onScalars hlane
  · exact hP.onScalars h

theorem fixedWidth {width : Nat} {int : Int} {d : Value} (h : fixedWidth width int = .ok d) :
    d.ScalarsIn P := by
  obtain ⟨i, -, rfl⟩ := fixedWidth_inv h
  exact hP.int i

theorem floatToInteger {twosComplement : Bool} {x : FloatBits .double} {ty : Ty} {d : Value}
    (h : floatToInteger twosComplement x ty = .ok d) : d.ScalarsIn P := by
  obtain ⟨width, -, ⟨int, h⟩ | rfl⟩ := floatToInteger_inv h
  · exact hP.fixedWidth h
  · exact Value.scalarsIn_poison _

/-- A conversion of a scalar makes no address, but may pass one on, so the property is asked of the
operand. -/
theorem castScalar {cast : Cast} {v d : Value} {ty : Ty} (hv : v.ScalarsIn P)
    (h : cast.onScalar target.pointerBits v ty = .ok d) : d.ScalarsIn P := by
  simp only [Cast.onScalar] at h
  split at h <;> first
    | exact hP.fixedWidth h
    | exact hP.floatToInteger h
    | cases h; exact hP.iptr _
    | cases h; exact hP.float _
    | cases h; exact hP.double _
    | cases h; exact hv
    | cases h

theorem castLanes {cast : Cast} {source ty : Ty} {v d : Value} (hv : v.ScalarsIn P)
    (h : cast.onLanes target.pointerBits source v ty = .ok d) : d.ScalarsIn P := by
  refine Cast.onLanes_induction (motive := fun _ v _ d => v.ScalarsIn P → d.ScalarsIn P) ?_ ?_ h hv
  · intro source v ty d h hv
    exact hP.castScalar hv h
  · intro count source vs ty ds hds hv
    refine Value.scalarsIn_of_lanes (t := ty) (forall₂_of_mem hds ?_)
    rintro v hmem d - (rfl | hkeep)
    · exact .inl rfl
    · exact .inr (hkeep (Value.scalarsIn_aggregate.1 hv v hmem))

end Target.Allows

theorem Target.allows_canonical : target.Allows target.Canonical := fun _ hs _ => hs

namespace Machine

theorem canonical_castPointer {cast : Cast} {v d : Value} {ty : Ty}
    (h : (standard target).castPointer cast v ty = .ok d) : d.ScalarsIn target.Canonical := by
  rcases castPointer_inv h with
    ⟨a, -, -, rfl⟩ | ⟨_, _, i, -, -, -, rfl⟩ | ⟨_, _, a, -, -, -, rfl⟩
  · -- the one conversion that gives a pointer-sized integer cuts it to the size
    exact Value.scalarsIn_scalar.2 (Target.canonical_iptr_toNat _)
  · exact Value.scalarsIn_scalar.2 trivial
  · exact Value.scalarsIn_scalar.2 trivial

/-- The standard instructions keep pointer-sized integers in the range of pointers, if that is not
so wide that its width cannot be counted. All of them compute on registers of that width, and read
the result as an unsigned number. -/
theorem keepsScalars_canonical (target : Target) (h : 8 * target.pointerSize < 2 ^ 32) :
    (standard target).KeepsScalars target.Canonical fun _ _ => True where
  zero s hs := by
    cases s with
    | iptr int =>
      cases hs
      exact ⟨Int.le_refl 0, Int.pow_pos (by decide)⟩
    | _ => trivial
  ofBytes s bytes hs := by
    cases s with
    | iptr int =>
      rw [Scalar.ty, ofBytes, Outcome.bind_eq_ok] at hs
      obtain ⟨_, hcheck, hs⟩ := hs
      cases hs
      -- as many bytes as a pointer has spell no more than a pointer holds
      have hlen : bytes.length = target.byteSize .iptr := (checkBytes_eq_ok_iff.1 hcheck).2
      have hlt := natOfBytes_lt bytes
      rw [hlen, Target.byteSize, Target.pow_pointerSize h] at hlt
      exact ⟨Int.natCast_nonneg _, by exact_mod_cast hlt⟩
    | _ => trivial
  binary _ _ h := Target.allows_canonical.onLanes h
  convert hv _ h := Target.allows_canonical.castLanes hv h
  castPointer _ _ h := canonical_castPointer h

/-- Whatever is decided, its pointer-sized integers are in the range of pointers. This is so even of
an integer that was written out beyond it, as deciding it cuts it down. -/
theorem canonical_concretizeWithin {target : Target} (h : 8 * target.pointerSize < 2 ^ 32)
    {levels : Nat} {v : SymValue} {d : Value}
    (hd : (standard target).concretizeWithin levels v = .ok d) : d.ScalarsIn target.Canonical := by
  refine scalarsIn_concretizeWithin (keepsScalars_canonical target h) (Nat.le_refl levels) ?_ hd
  -- a pointer-sized integer that is written out is cut when it is decided
  intro w _
  cases w with
  | scalar s =>
    cases s with
    | iptr int => exact Target.canonical_iptr_toNat _
    | _ => trivial
  | cast => exact fun _ _ _ _ => trivial
  | _ => trivial

end Machine

end Standard

end SymbolicBytes
