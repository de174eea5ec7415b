import SymbolicBytes.Scalar
/-!
# Concrete values

A `Value` is fully decided: a scalar, an aggregate of values, the result of a void computation, or
poison of some type. Equality of values is equality of their bits (`DecidableEq`); comparison of
floats by number is `Value.numericEq`.
-/

namespace SymbolicBytes

/-- A concrete value. -/
inductive Value where
  /-- a value without members -/
  | scalar (s : Scalar)
  /-- an array, vector or struct -/
  | aggregate (kind : AggregateKind) (members : List Value)
  /-- the result of a computation without result -/
  | void
  /-- the mark of a broken promise, in the place of a value of this type -/
  | poison (ty : Ty)
  deriving Inhabited

namespace Value

/-- A vector with these lanes. -/
@[match_pattern] abbrev vector (lanes : List Value) : Value := aggregate (.sequence .vector) lanes

/-- A pointer. -/
@[match_pattern] abbrev address (a : Address) : Value := scalar (.address a)

/-- An integer of a fixed width. -/
@[match_pattern] abbrev int (i : FixedInt) : Value := scalar (.int i)

/-- A pointer-sized integer. -/
@[match_pattern] abbrev iptr (int : Int) : Value := scalar (.iptr int)

/-- A float of the single format. -/
@[match_pattern] abbrev float (bits : FloatBits .single) : Value := scalar (.float bits)

/-- A float of the double format. -/
@[match_pattern] abbrev double (bits : FloatBits .double) : Value := scalar (.double bits)

/-- A truth value. -/
def bit (b : Bool) : Value := int (.ofBool b)

/-! ## Equality -/

mutual

/-- Whether two values are the same, decided by walking both. -/
def same : Value → Value → Bool
  | scalar s, scalar t => s == t
  | aggregate k vs, aggregate l ws => k == l && sameAll vs ws
  | void, void => true
  | poison s, poison t => s == t
  | _, _ => false

/-- Whether two lists hold the same values in the same order. -/
def sameAll : List Value → List Value → Bool
  | [], [] => true
  | v :: vs, w :: ws => same v w && sameAll vs ws
  | _, _ => false

end

mutual

theorem same_iff : ∀ v w : Value, same v w = true ↔ v = w
  | scalar _, w | void, w | poison _, w => by cases w <;> simp [same]
  | aggregate _ vs, w => by
    cases w with
    | aggregate _ ws => simp [same, sameAll_iff vs ws]
    | _ => simp [same]

theorem sameAll_iff : ∀ vs ws : List Value, sameAll vs ws = true ↔ vs = ws
  | [], ws => by cases ws <;> simp [sameAll]
  | v :: vs, ws => by
    cases ws with
    | nil => simp [sameAll]
    | cons w ws => simp [sameAll, same_iff v w, sameAll_iff vs ws]

end

instance : DecidableEq Value := fun v w => decidable_of_iff _ (same_iff v w)

mutual

/-- Equality which compares floats as numbers, at every depth. -/
def numericEq : Value → Value → Bool
  | scalar s, scalar t => s.numericEq t
  | aggregate k vs, aggregate l ws => k == l && numericEqAll vs ws
  | void, void => true
  | poison s, poison t => s == t
  | _, _ => false

/-- Member by member equality which compares floats as numbers. -/
def numericEqAll : List Value → List Value → Bool
  | [], [] => true
  | v :: vs, w :: ws => numericEq v w && numericEqAll vs ws
  | _, _ => false

end

/-! ## Views -/

/-- The kind of the value in answers and messages. -/
def kindName : Value → String
  | scalar s => s.kindName
  | aggregate kind _ => kind.name
  | void => "none"
  | poison _ => "poison"

/-- Whether the value as a whole is poison. -/
def isPoison : Value → Bool
  | poison _ => true
  | _ => false

/-- The members of an aggregate. -/
def members? : Value → Option (List Value)
  | aggregate _ members => some members
  | _ => none

/-- What aggregate the value is, if it is one. -/
def aggregateKind? : Value → Option AggregateKind
  | aggregate kind _ => some kind
  | _ => none

mutual

/-- The type of the value, where the value alone tells it. A sequence takes the type of its first
member, so one without members has no type. -/
def ty? : Value → Option Ty
  | scalar s => some s.ty
  | aggregate (.sequence kind) members => (headTy? members).map (.sequence kind members.length)
  | aggregate (.record kind) members => (tys? members).map (.record kind)
  | void => some .void
  | poison ty => some ty

/-- The types of the listed values, where all of them can be told. -/
def tys? : List Value → Option (List Ty)
  | [] => some []
  | v :: vs => (ty? v).bind fun t => (tys? vs).map (t :: ·)

/-- The type of the first of the listed values. -/
def headTy? : List Value → Option Ty
  | [] => none
  | v :: _ => ty? v

end

mutual

/-- The value as it is written in messages. -/
def display : Value → String
  | scalar s => s.display
  | aggregate kind members => kind.enclose (", ".intercalate (displayAll members))
  | void => "none"
  | poison ty => ty.display ++ " poison"

/-- The listed values as they are written in messages. -/
def displayAll : List Value → List String
  | [] => []
  | v :: vs => display v :: displayAll vs

end

instance : ToString Value := ⟨display⟩

end Value

end SymbolicBytes
