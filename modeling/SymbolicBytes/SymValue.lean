import SymbolicBytes.Fault
/-!
# Symbolic values

A `SymValue` may still wait to be decided: beside the concrete shapes there are `undef`, the
expressions, and the values that are only known byte by byte. A `SymByte` is one such byte: byte
`index` of whatever its parent will be.

Bytes do not own their parent but refer to it. The reference is the `ref` field: bytes with equal
references have one and the same parent, however deep it is, and need not be compared to know that.
A parent that was stored in memory is known by the id of its store, which tells it from every other
parent as long as no two stores are given one id.
-/

namespace SymbolicBytes

/-- What a symbolic byte knows its parent by. -/
inductive ParentRef where
  /-- the parent stored under this id, which no other store was given -/
  | stored (id : Nat)
  /-- the parent of bytes that were written out, numbered by who wrote them -/
  | given (n : Nat)
  deriving DecidableEq, Repr

mutual

/-- A value that may still wait to be decided. -/
inductive SymValue where
  /-- a value without members -/
  | scalar (s : Scalar)
  /-- any value of the type -/
  | undef (ty : Ty)
  /-- the mark of a broken promise -/
  | poison (ty : Ty)
  /-- the result of a computation without result -/
  | void
  /-- an array, vector or struct -/
  | aggregate (kind : AggregateKind) (members : List SymValue)
  /-- an operation on two operands -/
  | binary (op : BinaryOp) (left right : SymValue)
  /-- a conversion from the first type to the second -/
  | cast (op : Cast) (source : Ty) (value : SymValue) (target : Ty)
  /-- a choice between two values -/
  | select (cond ifTrue ifFalse : SymValue)
  /-- the part of an aggregate at the end of a path -/
  | extract (whole : SymValue) (path : List Nat)
  /-- an aggregate with the part at the end of a path replaced -/
  | insert (whole element : SymValue) (path : List Nat)
  /-- a single byte, which is no value -/
  | byte (b : SymByte)
  /-- the value of a type that these bytes spell, least significant first -/
  | concat (bytes : List SymByte) (ty : Ty)

/-- One byte of a value. -/
structure SymByte where
  /-- the value that the byte is taken from -/
  parent : SymValue
  /-- what the parent is known by -/
  ref : ParentRef
  /-- the type that the parent was stored at -/
  ty : Ty
  /-- the position of the byte in its parent -/
  index : SymValue
  /-- the store that put the byte in memory -/
  storeId : Nat

end

instance : Inhabited SymValue := ⟨.void⟩

instance : Inhabited SymByte := ⟨⟨.void, .given 0, .void, .void, 0⟩⟩

namespace SymValue

/-- A pointer-sized integer. -/
abbrev iptr (int : Int) : SymValue := scalar (.iptr int)

/-- The kind of the value in answers and messages. -/
def kindName : SymValue → String
  | scalar s => s.kindName
  | undef _ => "undef"
  | poison _ => "poison"
  | void => "none"
  | aggregate kind _ => kind.name
  | binary op _ _ => op.kindName
  | cast .. => "conversion"
  | select .. => "select"
  | extract .. => "extractvalue"
  | insert .. => "insertvalue"
  | byte _ => "extractbyte"
  | concat .. => "concatbytes"

/-! ## Text -/

/-- Positions separated by commas. -/
def displayPositions (path : List Nat) : String := ", ".intercalate (path.map toString)

end SymValue

mutual

/-- The value as it is written in messages. -/
def SymValue.display : SymValue → String
  | .scalar s => s.display
  | .undef ty => ty.display ++ " undef"
  | .poison ty => ty.display ++ " poison"
  | .void => "none"
  | .aggregate kind members => kind.enclose (", ".intercalate (SymValue.displayAll members))
  | .binary op left right => op.head ++ "(" ++ left.display ++ ", " ++ right.display ++ ")"
  | .cast op source value target =>
    op.display ++ " " ++ source.display ++ " " ++ value.display ++ " to " ++ target.display
  | .select cond ifTrue ifFalse =>
    "select(" ++ cond.display ++ ", " ++ ifTrue.display ++ ", " ++ ifFalse.display ++ ")"
  | .extract whole path =>
    "extractvalue(" ++ whole.display ++ ", " ++ SymValue.displayPositions path ++ ")"
  | .insert whole element path =>
    "insertvalue(" ++ whole.display ++ ", " ++ element.display ++ ", " ++
      SymValue.displayPositions path ++ ")"
  | .byte b => b.display
  | .concat bytes ty =>
    "concatbytes([" ++ ", ".intercalate (SymByte.displayAll bytes) ++ "], " ++ ty.display ++ ")"

/-- The listed values as they are written in messages. -/
def SymValue.displayAll : List SymValue → List String
  | [] => []
  | v :: vs => v.display :: SymValue.displayAll vs

/-- The byte as it is written in messages. -/
def SymByte.display : SymByte → String
  | ⟨parent, _, ty, index, storeId⟩ =>
    "extractbyte(" ++ parent.display ++ ", " ++ ty.display ++ ", " ++ index.display ++ ", sid " ++
      toString storeId ++ ")"

/-- The listed bytes as they are written in messages. -/
def SymByte.displayAll : List SymByte → List String
  | [] => []
  | b :: bs => b.display :: SymByte.displayAll bs

end

instance : ToString SymValue := ⟨SymValue.display⟩

instance : ToString SymByte := ⟨SymByte.display⟩

/-! ## Concrete values as symbolic ones -/

mutual

/-- The symbolic value that is decided already. -/
def Value.toSym : Value → SymValue
  | .scalar s => .scalar s
  | .aggregate kind members => .aggregate kind (Value.toSyms members)
  | .void => .void
  | .poison ty => .poison ty

/-- The listed values as symbolic ones. -/
def Value.toSyms : List Value → List SymValue
  | [] => []
  | v :: vs => v.toSym :: Value.toSyms vs

end

namespace SymByte

/-- The position of the byte in its parent, if it is written out and is no expression. -/
def literalIndex? (b : SymByte) : Option Nat :=
  match b.index with
  | .scalar (.iptr int) => if 0 ≤ int ∧ int < UInt64.size then some int.toNat else none
  | .scalar (.int i) => some i.toNat
  | _ => none

/-- The first `size` bytes of a value stored under an id. -/
def run (parent : SymValue) (ref : ParentRef) (ty : Ty) (storeId size : Nat) : List SymByte :=
  (List.range size).map fun (i : Nat) => ⟨parent, ref, ty, .iptr i, storeId⟩

@[simp] theorem length_run (parent : SymValue) (ref : ParentRef) (ty : Ty) (storeId size : Nat) :
    (run parent ref ty storeId size).length = size := by
  simp [run]

end SymByte

end SymbolicBytes
