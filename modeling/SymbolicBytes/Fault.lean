import SymbolicBytes.Operator
import SymbolicBytes.Value
/-!
# Faults

Why an operation has no result. A `Fault` is a cause, with the data that the cause is about; its
wording is in `Fault.message` alone. `Fault.kind` sorts the causes: malformed input, a type that
has no values, an instruction that refuses its operands, and the end of the store ids.

Expressions appear in faults as printed text, since two prints of one expression are equal where
the expressions may differ in what they share.
-/

namespace SymbolicBytes

/-- How many levels of nesting a walk over a value goes through below its top. -/
def depthLimit : Nat := 512

/-- The sorts of faults. -/
inductive FaultKind where
  /-- malformed input -/
  | structural
  /-- a type that has no values -/
  | unsupported
  /-- an instruction that refuses its operands -/
  | evaluation
  /-- no store id is left -/
  | exhausted
  deriving DecidableEq, Repr

namespace FaultKind

/-- The name of the sort. -/
def name : FaultKind → String
  | structural => "structural"
  | unsupported => "unsupported"
  | evaluation => "evaluation"
  | exhausted => "exhausted"

/-- A message with its sort in front. -/
def report (kind : FaultKind) (message : String) : String := kind.name ++ " error: " ++ message

end FaultKind

/-- The cause of a failure. -/
inductive Fault where
  /-- a type that has no values -/
  | noValues (ty : Ty)
  /-- a type that has no default value -/
  | noDefault (ty : Ty)
  /-- a value nested too deep to be concretized -/
  | tooDeep
  /-- a value nested too deep to be stored -/
  | storedTooDeep
  /-- an integer beyond the addresses of the memory -/
  | outsideAddressSpace (int : Int)
  /-- no part of a type at the end of a path -/
  | noMemberAt (path : List Nat) (ty : Ty)
  /-- a position inside a value without members -/
  | extractFromScalar (index : Nat) (value : Value)
  /-- a position past the last member -/
  | extractPastEnd (index : Nat) (value : Value)
  /-- an element put into poison of a type without members -/
  | insertIntoPoison (ty : Ty)
  /-- an element put into a value without members -/
  | insertIntoScalar (index : Nat) (value : Value)
  /-- an element put past the last member -/
  | insertPastEnd (index : Nat) (value : Value)
  /-- a single symbolic byte in the place of a value -/
  | bareByteConcretized (byte : String)
  /-- a single symbolic byte stored as a value -/
  | bareByteStored (byte : String)
  /-- a single symbolic byte inside a stored value -/
  | bareByteInside (byte : String)
  /-- a choice by poison whose result has no type that can be told -/
  | untypedSelect (value : Value)
  /-- a choice by lanes between values without members -/
  | selectWithoutLanes (ifTrue ifFalse : Value)
  /-- a choice by lanes between values of another length -/
  | selectLaneCount (count : Nat) (ifTrue ifFalse : Value)
  /-- a choice by a poison lane whose result has no type that can be told -/
  | untypedLane (value : Value)
  /-- a lane of a condition that is no truth value -/
  | laneNotBit (value : Value)
  /-- a condition that is no truth value -/
  | conditionNotBit (value : Value)
  /-- a lane-wise pointer conversion from a type that is no vector -/
  | castFromNonVector (cast : Cast) (value : Value) (ty : Ty)
  /-- a lane-wise pointer conversion into another number of lanes -/
  | castLaneCount (cast : Cast) (count : Nat) (ty : Ty)
  /-- a pointer conversion that does not apply to the value or to the type -/
  | pointerCast (cast : Cast) (value : Value) (ty : Ty)
  /-- a bitcast between types of different sizes -/
  | bitcastSizes (source target : Ty)
  /-- a byte position that is no integer -/
  | indexNotInteger (value : Value)
  /-- a number of bytes that is not the size of the type -/
  | byteCount (count : Nat) (ty : Ty) (size : Nat)
  /-- a byte of the result of a void computation -/
  | voidByte (index : Nat)
  /-- members read as a type of another kind or another number of members -/
  | membersMisread (kind : String) (count : Nat) (ty : Ty)
  /-- a type without a member at this position -/
  | noMember (ty : Ty) (index : Nat)
  /-- a byte past the last byte of the type -/
  | pastEnd (index : Nat) (ty : Ty)
  /-- too few bytes for a member -/
  | bytesRanOut (ty : Ty)
  /-- bytes that belong to no member -/
  | bytesLeftOver (count : Nat)
  /-- a byte without a value although its store was read -/
  | unresolvedByte (index : Nat)
  /-- a byte without a place although its class has a new id -/
  | lostByte (index : Nat)
  /-- the result of a void computation stored where bytes are expected -/
  | voidStored (ty : Ty) (size : Nat)
  /-- a number of loaded bytes that is not the size of the type they are stored at -/
  | loadedByteCount (count : Nat) (ty : Ty) (size : Nat)
  /-- the result of a void computation loaded from bytes -/
  | voidLoaded (count : Nat)
  /-- a number of members that is not the number of fields -/
  | fieldCount (count : Nat) (ty : Ty) (fields : Nat)
  /-- a number of members that is not the number of elements -/
  | elementCount (count : Nat) (ty : Ty)
  /-- a value stored at a type that it does not have -/
  | shapeMismatch (kind value : String) (ty : Ty)
  /-- a width at which integers have no values -/
  | noIntegerWidth (width : Nat)
  /-- an integer cut to a width at which integers have no values -/
  | truncationWidth (int : Int) (width : Nat)
  /-- vector operands of different lengths -/
  | laneCounts (left right : Nat)
  /-- integer operands of different widths -/
  | widthMismatch (left right : FixedInt)
  /-- a fixed-width division by zero -/
  | divisionByZero (instruction : String)
  /-- a pointer-sized division by zero -/
  | iptrDivisionByZero
  /-- a signed division whose quotient does not fit -/
  | divisionOverflow (instruction : String) (dividend : Value)
  /-- a float converted into a type that is no integer -/
  | floatIntoNonInteger (ty : Ty)
  /-- a conversion that works on bytes and not on values -/
  | castNeedsBytes (cast : Cast)
  /-- a conversion that does not apply to the value or to the type -/
  | valueCast (cast : Cast) (value : Value) (ty : Ty)
  /-- a lane-wise conversion into another number of lanes -/
  | vectorCastLength (count : Nat) (ty : Ty)
  /-- operands that an operator does not apply to -/
  | operands (op : BinaryOp) (left right : Value)
  /-- no store id is left after this one -/
  | idsExhausted (last : Nat)
  deriving DecidableEq

/-- The result of an operation that may fail. -/
abbrev Outcome (α : Type) : Type := Except Fault α

namespace Fault

/-- The sort of the cause. -/
def kind : Fault → FaultKind
  | noValues _ | noDefault _ => .unsupported
  | laneCounts .. | widthMismatch .. | divisionByZero _ | iptrDivisionByZero | divisionOverflow ..
  | floatIntoNonInteger _ | castNeedsBytes _ | valueCast .. | vectorCastLength .. | operands .. =>
    .evaluation
  | idsExhausted _ => .exhausted
  | _ => .structural

/-- What a type is called where it is refused: integers by their width, others by name. -/
def describeTy : Ty → String
  | .int width => "integer width i" ++ toString width
  | ty => ty.display

/-- What an operator does, in the message that refuses its operands. -/
def describeOp : BinaryOp → String
  | .int _ => "integer operation"
  | .intCmp _ => "integer comparison"
  | .float _ => "float operation"
  | .floatCmp _ => "float comparison"

/-- Positions in brackets. -/
def displayPath (path : List Nat) : String := "[" ++ ", ".intercalate (path.map toString) ++ "]"

/-- The wording of the cause. -/
def message : Fault → String
  | noValues (.int width) => s!"integer width i{width} is not supported"
  | noValues ty => s!"type {ty} is not supported"
  | noDefault ty => s!"no default value for {describeTy ty}"
  | tooDeep => s!"value nested deeper than {depthLimit} levels"
  | storedTooDeep => s!"stored value nested deeper than {depthLimit} levels"
  | outsideAddressSpace int => s!"{int} is outside the 32-bit address space"
  | noMemberAt path ty => s!"no member at {displayPath path} in {ty}"
  | extractFromScalar index value => s!"extractvalue index {index} into non-aggregate {value}"
  | extractPastEnd index value => s!"extractvalue index {index} out of range for {value}"
  | insertIntoPoison ty => s!"insertvalue into poison {ty}"
  | insertIntoScalar index value => s!"insertvalue index {index} into non-aggregate {value}"
  | insertPastEnd index value => s!"insertvalue index {index} out of range for {value}"
  | bareByteConcretized byte => s!"bare byte placeholder cannot be concretized: {byte}"
  | bareByteStored byte => s!"bare byte placeholder cannot be stored: {byte}"
  | bareByteInside byte => s!"bare byte placeholder inside a stored value: {byte}"
  | untypedSelect value => s!"cannot type the poison result of selecting {value}"
  | selectWithoutLanes ifTrue ifFalse => s!"vector select over {ifTrue} and {ifFalse}"
  | selectLaneCount count ifTrue ifFalse =>
    s!"vector select with {count} conditions over {ifTrue} and {ifFalse}"
  | untypedLane value => s!"cannot type the poison lane of {value}"
  | laneNotBit value => s!"select condition lane {value} is not an i1"
  | conditionNotBit value => s!"select condition {value} is not an i1"
  | castFromNonVector cast value ty =>
    s!"{cast.display} of vector {value} from non-vector type {ty}"
  | castLaneCount cast count ty => s!"{cast.display} of {count} elements into {ty}"
  | pointerCast cast value ty => s!"cannot apply {cast.display} to {value} producing {ty}"
  | bitcastSizes source target => s!"bitcast between {source} and {target} of different sizes"
  | indexNotInteger value => s!"byte index {value} is not an integer"
  | byteCount count ty size => s!"{count} bytes cannot form {ty} ({size} bytes)"
  | voidByte index => s!"void has no byte {index}"
  | membersMisread kind count ty => s!"{kind} value with {count} members read as {ty}"
  | noMember ty index => s!"{ty} has no member {index}"
  | pastEnd index ty => s!"byte {index} is past the end of {ty}"
  | bytesRanOut ty => s!"ran out of bytes reading a member of type {ty}"
  | bytesLeftOver count => s!"{count} byte(s) left over after the last member"
  | unresolvedByte index => s!"byte {index} was never resolved"
  | lostByte index => s!"byte {index} went missing while re-tagging"
  | voidStored ty size => s!"none cannot be stored at {ty} ({size} bytes)"
  | loadedByteCount count ty size =>
    s!"{count} loaded bytes cannot be stored at {ty} ({size} bytes)"
  | voidLoaded count => s!"void loaded from {count} bytes"
  | fieldCount count ty fields => s!"{count} members given for {ty} with {fields} fields"
  | elementCount count ty => s!"{count} elements given for {ty}"
  | shapeMismatch kind value ty => s!"{kind} value {value} does not have type {ty}"
  | noIntegerWidth width => s!"no integer representation for width {width}"
  | truncationWidth int width => s!"{int} does not truncate to i{width}"
  | laneCounts left right => s!"vector operands of length {left} and {right}"
  | widthMismatch left right =>
    s!"mismatched integer operands {left.display} and {right.display}"
  | divisionByZero instruction => s!"{instruction} by zero"
  | iptrDivisionByZero => "iptr division by zero"
  | divisionOverflow instruction dividend => s!"{instruction} overflow on {dividend}"
  | floatIntoNonInteger ty => s!"float to integer conversion into {ty}"
  | castNeedsBytes cast => s!"{cast.display} is resolved through the byte codec"
  | valueCast cast value ty => s!"cannot apply {cast.display} to {value} producing {ty}"
  | vectorCastLength count ty => s!"vector conversion of {count} elements into {ty}"
  | operands op left right => s!"invalid {describeOp op} {op.display} on {left} and {right}"
  | idsExhausted last => s!"store id space exhausted after {last}"

end Fault

/-- The check that every part of a type has values. -/
def Ty.checkSupported (t : Ty) : Outcome Unit :=
  match t.unsupported? with
  | none => .ok ()
  | some leaf => .error (.noValues leaf)

@[simp] theorem Ty.checkSupported_eq_ok_iff (t : Ty) : t.checkSupported = .ok () ↔ t.Supported := by
  unfold Ty.checkSupported Ty.Supported
  cases t.unsupported? <;> simp

end SymbolicBytes
