import SymbolicBytes.Address
import SymbolicBytes.Ieee.Arithmetic
import SymbolicBytes.Ieee.Decimal
import SymbolicBytes.Ty
/-!
# Scalars

The values without members: addresses, integers and floats. Concrete values and symbolic ones share
them. Floats are bit patterns, so equality of scalars tells NaNs and the two zeros apart; the
comparison by number is `Scalar.numericEq`.
-/

namespace SymbolicBytes

/-- A value without members. -/
inductive Scalar where
  /-- a pointer -/
  | address (a : Address)
  /-- an integer of a fixed width -/
  | int (i : FixedInt)
  /-- a pointer-sized integer; its width belongs to the target -/
  | iptr (int : Int)
  /-- a float of the single format -/
  | float (bits : FloatBits .single)
  /-- a float of the double format -/
  | double (bits : FloatBits .double)
  deriving DecidableEq

namespace Scalar

/-- The kind of the scalar in answers and messages. -/
def kindName : Scalar → String
  | address _ => "address"
  | int i => i.width.name
  | iptr _ => "iptr"
  | float _ => "float"
  | double _ => "double"

/-- The type of the scalar. -/
def ty : Scalar → Ty
  | address _ => .pointer
  | int i => .int i.width.bits
  | iptr _ => .iptr
  | float _ => .float .float
  | double _ => .float .double

/-- The scalar as it is written in messages. -/
def display : Scalar → String
  | address a => a.display
  | int i => i.display
  | iptr i => "iptr " ++ toString i
  | float x => "float " ++ FloatFormat.display x
  | double x => "double " ++ FloatFormat.display x

/-- Equality which compares floats as numbers: no NaN equals anything, and the zeros are equal. -/
def numericEq : Scalar → Scalar → Bool
  | float x, float y => FloatFormat.compare? x y == some .eq
  | double x, double y => FloatFormat.compare? x y == some .eq
  | s, t => decide (s = t)

end Scalar

end SymbolicBytes
