import SymbolicBytes.Proofs.Integers
import SymbolicBytes.Proofs.Inversion
import SymbolicBytes.Proofs.Rebuilding
/-!
# Types of what instructions give

An instruction set respects types (`InstructionSet.RespectsTypes`) if the result of an operation has
the type that the types of its operands tell, and the result of a conversion the type converted to.
The standard instructions do (`respectsTypes_standard`), and so does every conversion of a machine
whose instructions do (`hasTy_convert`).

Operations lift from lanes to vectors in three places: `onLanes`, `Cast.onLanes` and
`Machine.castPointers`. In each, the lanes of the operands have the element types, and a poison lane
gives poison of the element type of the result.
-/

namespace SymbolicBytes

/-- The type of the truth values of a comparison: one, or one for every lane. -/
def Ty.truthTy : Ty → Ty
  | .vector count _ => .vector count .bit
  | _ => .bit

/-- The type of what an operation makes of two operands of a type. -/
def BinaryOp.resultTy : BinaryOp → Ty → Ty
  | .int _, t | .float _, t => t
  | .intCmp _, t | .floatCmp _, t => t.truthTy

/-- Poison made of an operand that is poison as a whole is of the type of the result. -/
theorem BinaryOp.poisonTy_eq_resultTy (op : BinaryOp) (t : Ty) : op.poisonTy t = op.resultTy t := by
  cases op <;> rfl

/-- And poison made of a lane is of the type of the lanes of the result. -/
theorem BinaryOp.resultTy_vector (op : BinaryOp) (count : Nat) (element : Ty) :
    op.resultTy (.vector count element) = .vector count (op.lanePoisonTy element) := by
  cases op <;> rfl

theorem BinaryOp.resultTy_of_not_vector {op : BinaryOp} {t : Ty}
    (ht : t.aggregateKind? ≠ some (.sequence .vector)) : op.resultTy t = op.lanePoisonTy t := by
  cases op with
  | int op => rfl
  | float op => rfl
  | intCmp pred | floatCmp pred =>
    cases t with
    | sequence kind count element =>
      cases kind with
      | array => rfl
      | vector => exact absurd rfl ht
    | _ => rfl

/-- Whether the results of the instructions have the types that they should. -/
structure InstructionSet.RespectsTypes (instructions : InstructionSet) : Prop where
  /-- an operation on two operands of a type gives a value of the result type -/
  binary : ∀ {op v w t d}, v.HasTy t → w.HasTy t → poisonOperand? v w = none →
    instructions.binary op v w = .ok d → d.HasTy (op.resultTy t)
  /-- a conversion gives a value of the type that is converted to -/
  convert : ∀ {cast source v target d}, v.HasTy source → v.isPoison = false →
    instructions.convert cast source v target = .ok d → d.HasTy target

/-! ## Operations on scalars -/

theorem IntOp.hasTy_onScalars {bits : Nat} {op : IntOp} {v w d : Value} {t : Ty} (hv : v.HasTy t)
    (h : op.onScalars bits v w = .ok d) : d.HasTy t := by
  rcases IntOp.onScalars_inv h with ⟨x, _, rfl, -, -, hd⟩ | ⟨x, _, rfl, -, hd⟩
  · obtain rfl := hv.scalar_eq
    rcases hd with ⟨b, rfl⟩ | rfl
    · exact .scalar (.int ⟨x.width, b⟩)
    · exact .poison _
  · obtain rfl := hv.scalar_eq
    rcases hd with ⟨b, rfl⟩ | rfl
    · exact .scalar (.iptr b.toNat)
    · exact .poison _

theorem Value.hasTy_bit (b : Bool) : (Value.bit b).HasTy .bit := .scalar (.int (.ofBool b))

theorem FloatOp.hasTy_onScalars {op : FloatOp} {v w d : Value} {t : Ty} (hv : v.HasTy t)
    (h : op.onScalars v w = .ok d) : d.HasTy t := by
  rcases FloatOp.onScalars_inv h with ⟨x, y, rfl, -, rfl⟩ | ⟨x, y, rfl, -, rfl⟩
  · obtain rfl := hv.scalar_eq
    exact .scalar (.float _)
  · obtain rfl := hv.scalar_eq
    exact .scalar (.double _)

/-- An operation on operands that are no vectors gives what a lane of it gives: a truth value if it
compares, and the type of the operands otherwise. -/
theorem BinaryOp.hasTy_onScalars {bits : Nat} {op : BinaryOp} {v w d : Value} {t : Ty}
    (hv : v.HasTy t) (h : op.onScalars bits v w = .ok d) : d.HasTy (op.lanePoisonTy t) := by
  cases op with
  | int op => exact IntOp.hasTy_onScalars hv h
  | intCmp pred =>
    obtain ⟨b, rfl⟩ := IntPred.onScalars_inv h
    exact Value.hasTy_bit b
  | float op => exact FloatOp.hasTy_onScalars hv h
  | floatCmp pred =>
    obtain ⟨b, rfl⟩ := FloatPred.onScalars_inv h
    exact Value.hasTy_bit b

/-! ## Lanes -/

/-- A vector type is the type of vectors whose lanes have the element type. -/
theorem Value.hasTy_vector {count : Nat} {element : Ty} {lanes : List Value}
    (hlen : lanes.length = count) (h : ∀ v ∈ lanes, v.HasTy element) :
    (Value.vector lanes).HasTy (.vector count element) :=
  .aggregate rfl (forall₂_replicate_right.2 ⟨hlen, h⟩)

/-- A vector is of a vector type. -/
theorem Value.HasTy.vector_inv {lanes : List Value} {t : Ty} (h : (Value.vector lanes).HasTy t) :
    ∃ count element, t = .vector count element ∧ lanes.length = count ∧
      ∀ v ∈ lanes, v.HasTy element := by
  obtain ⟨hkind, hmembers⟩ := h.members
  cases t with
  | sequence kind count element =>
    cases hkind
    exact ⟨count, element, rfl, forall₂_replicate_right.1 hmembers⟩
  | _ => cases hkind

theorem Value.HasTy.of_members? {v : Value} {count : Nat} {element : Ty}
    (h : v.HasTy (.vector count element)) {members : List Value} (hv : v.members? = some members) :
    ∀ m ∈ members, m.HasTy element := by
  cases v with
  | aggregate kind vs =>
    obtain rfl := Option.some.inj hv
    exact (forall₂_replicate_right.1 h.members.2).2
  | _ => cases hv

theorem poisonOperand?_eq_none_iff {v w : Value} :
    poisonOperand? v w = none ↔ v.isPoison = false ∧ w.isPoison = false := by
  cases v <;> cases w <;> simp [poisonOperand?, Value.isPoison]

/-- Poison among the operands is poison of their type. -/
theorem poisonOperand?_eq {v w : Value} {t u : Ty} (hv : v.HasTy t) (hw : w.HasTy t)
    (h : poisonOperand? v w = some u) : u = t := by
  simp only [poisonOperand?] at h
  split at h
  · cases h
    exact hv.poison_eq.symm
  · cases h
    exact hw.poison_eq.symm
  · cases h

/-- The standard operations give results of the types that they should. -/
theorem BinaryOp.hasTy_onLanes {bits : Nat} {op : BinaryOp} {v w d : Value} {t : Ty}
    (hv : v.HasTy t) (hw : w.HasTy t) (hpoison : poisonOperand? v w = none)
    (h : onLanes op.lanePoisonTy (op.onScalars bits) v w = .ok d) : d.HasTy (op.resultTy t) := by
  rcases onLanes_inv h with ⟨vs, ws, ds, rfl, rfl, -, rfl, hlanes⟩ | ⟨hnot, h⟩
  · obtain ⟨count, element, rfl, hvlen, hvs⟩ := hv.vector_inv
    obtain ⟨_, _, heq, hwlen, hws⟩ := hw.vector_inv
    cases heq
    rw [BinaryOp.resultTy_vector]
    apply Value.hasTy_vector
    · rw [← hlanes.length_eq, List.length_zip, hvlen, hwlen, Nat.min_self]
    · intro d hd
      obtain ⟨lanes, hmem, hlane⟩ := exists_mem_of_forall₂ hlanes.flip hd
      have hv := hvs lanes.1 (List.of_mem_zip hmem).1
      have hw := hws lanes.2 (List.of_mem_zip hmem).2
      rcases hlane with ⟨t, hpoison | hpoison, rfl⟩ | hlane
      · rw [hpoison] at hv
        rw [hv.poison_eq]
        exact .poison _
      · rw [hpoison] at hw
        rw [hw.poison_eq]
        exact .poison _
      · exact BinaryOp.hasTy_onScalars hv hlane
  · rw [BinaryOp.resultTy_of_not_vector]
    · exact BinaryOp.hasTy_onScalars hv h
    · intro hkind
      -- two values of a vector type that are not poison are two vectors
      cases t with
      | sequence kind count element =>
        cases hkind
        obtain ⟨hvp, hwp⟩ := poisonOperand?_eq_none_iff.1 hpoison
        obtain ⟨vs, rfl, -⟩ := hv.sequence_inv hvp
        obtain ⟨ws, rfl, -⟩ := hw.sequence_inv hwp
        exact hnot vs ws rfl rfl
      | _ => cases hkind

/-! ## Conversions -/

theorem hasTy_fixedWidth {width : Nat} {int : Int} {d : Value}
    (h : fixedWidth width int = .ok d) : d.HasTy (.int width) := by
  obtain ⟨i, hi, rfl⟩ := fixedWidth_inv h
  rw [← FixedInt.bits_of_ofInt? hi]
  exact .scalar (.int i)

theorem hasTy_floatToInteger {twosComplement : Bool} {x : FloatBits .double} {ty : Ty} {d : Value}
    (h : floatToInteger twosComplement x ty = .ok d) : d.HasTy ty := by
  obtain ⟨width, rfl, ⟨int, h⟩ | rfl⟩ := floatToInteger_inv h
  · exact hasTy_fixedWidth h
  · exact .poison _

theorem Cast.hasTy_onScalar {bits : Nat} {cast : Cast} {v d : Value} {ty : Ty}
    (h : cast.onScalar bits v ty = .ok d) : d.HasTy ty := by
  simp only [Cast.onScalar] at h
  split at h <;> first
    | exact hasTy_fixedWidth h
    | exact hasTy_floatToInteger h
    | cases h; exact .scalar _
    | cases h

/-- Lanes that were converted one by one make a vector of the type that is converted to. A
conversion has to keep types only where its operand has one. -/
theorem Value.hasTy_of_lanes {count : Nat} {source target : Ty} {vs ds : List Value}
    (hv : (Value.vector vs).HasTy (.vector count source))
    (hds : List.Forall₂ (fun v d => d = .poison target ∨ (v.HasTy source → d.HasTy target)) vs ds) :
    (Value.vector ds).HasTy (.vector vs.length target) := by
  obtain ⟨_, _, heq, -, hvs⟩ := hv.vector_inv
  cases heq
  apply Value.hasTy_vector hds.length_eq.symm
  intro d hd
  obtain ⟨v, hmem, rfl | hty⟩ := exists_mem_of_forall₂ hds.flip hd
  · exact .poison target
  · exact hty (hvs v hmem)

/-- The standard conversions give values of the types that are converted to. -/
theorem Cast.hasTy_onLanes {bits : Nat} {cast : Cast} {source target : Ty} {v d : Value}
    (hv : v.HasTy source) (h : cast.onLanes bits source v target = .ok d) : d.HasTy target := by
  refine Cast.onLanes_induction (motive := fun source v target d => v.HasTy source → d.HasTy target)
    ?_ ?_ h hv
  · intro source v target d h _
    exact cast.hasTy_onScalar h
  · intro count source vs target ds hds hv
    exact Value.hasTy_of_lanes hv hds

/-- The standard instructions respect types, whatever the width of pointers is. -/
theorem InstructionSet.respectsTypes_standard (bits : Nat) :
    (InstructionSet.standard bits).RespectsTypes where
  binary hv hw hpoison h := BinaryOp.hasTy_onLanes hv hw hpoison h
  convert hv _ h := Cast.hasTy_onLanes hv h

namespace Machine

variable {machine : Machine}

theorem hasTy_castPointer {cast : Cast} {v d : Value} {ty : Ty}
    (h : machine.castPointer cast v ty = .ok d) : d.HasTy ty := by
  rcases castPointer_inv h with
    ⟨a, -, rfl, rfl⟩ | ⟨a, width, i, -, rfl, hi, rfl⟩ | ⟨int, provenance, a, rfl, -, -, rfl⟩
  · exact .scalar (.iptr _)
  · rw [← FixedInt.bits_of_ofInt? hi]
    exact .scalar (.int i)
  · exact .scalar (.address a)

theorem hasTy_castPointers {cast : Cast} {source target : Ty} {v d : Value} (hv : v.HasTy source)
    (h : machine.castPointers cast source v target = .ok d) : d.HasTy target := by
  refine castPointers_induction (motive := fun source v target d => v.HasTy source → d.HasTy target)
    ?_ ?_ h hv
  · intro source v target d h _
    exact hasTy_castPointer h
  · intro count source vs target ds hds hv
    exact Value.hasTy_of_lanes hv hds

/-- What bytes are read as has the type that they are read at, and a cast to its own type leaves the
value as it is. -/
theorem hasTy_bitcast {source target : Ty} {v d : Value} (hv : v.HasTy source)
    (h : machine.bitcast source v target = .ok d) : d.HasTy target := by
  rcases bitcast_inv h with ⟨rfl, rfl⟩ | ⟨-, -, -, -, ⟨-, rfl⟩ | ⟨bytes, -, h⟩⟩
  · exact hv
  · exact .poison target
  · exact hasTy_ofBytes h

/-- Every conversion gives a value of the type that is converted to, be it one of pointers, of bytes
or of the instruction set. -/
theorem hasTy_convert (hinstructions : machine.instructions.RespectsTypes) {cast : Cast}
    {source target : Ty} {v d : Value} (hv : v.HasTy source) (hpoison : v.isPoison = false)
    (h : machine.convert cast source v target = .ok d) : d.HasTy target := by
  rcases convert_inv h with ⟨-, h⟩ | h | h
  · exact hasTy_bitcast hv h
  · exact hasTy_castPointers hv h
  · exact hinstructions.convert hv hpoison h

end Machine

end SymbolicBytes
