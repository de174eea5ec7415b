import SymbolicBytes.SymValue
/-!
# Shapes

The check that a symbolic value may be stored at a type. Literals must have the type, part by part;
expressions are accepted as they are, since their type is only known once they are decided. The
check gives up below a number of levels, and `shapeWithin levels` is the check with that many left.
-/

namespace SymbolicBytes

namespace SymValue

/-- Whether a value is an expression, whose type shows only when it is decided. -/
def isExpression : SymValue → Bool
  | binary .. | cast .. | select .. | extract .. | insert .. | concat .. => true
  | _ => false

/-- Whether the value is a literal of the type, members aside. -/
def isLiteralOf : SymValue → Ty → Bool
  | scalar s, ty => s.ty == ty
  | undef t, ty | poison t, ty => t == ty
  | void, .void => true
  | _, _ => false

/-- The check of listed values against listed types, in order. -/
def checkEach (check : SymValue → Ty → Outcome Unit) : List SymValue → List Ty → Outcome Unit
  | v :: vs, t :: ts => do
    check v t
    checkEach check vs ts
  | _, _ => .ok ()

/-- The check of listed values against one type, in order. -/
def checkAll (check : SymValue → Ty → Outcome Unit) (ty : Ty) : List SymValue → Outcome Unit
  | [] => .ok ()
  | v :: vs => do
    check v ty
    checkAll check ty vs

/-- The check of a value against a type, given the check of the values directly inside it. -/
def shapeBy (check : SymValue → Ty → Outcome Unit) (v : SymValue) (ty : Ty) : Outcome Unit :=
  match v, ty with
  | byte b, _ => .error (.bareByteInside b.display)
  | aggregate (.record k) members, .record l fields =>
    if k ≠ l then .error (.shapeMismatch v.kindName v.display ty)
    else if members.length ≠ fields.length then
      .error (.fieldCount members.length ty fields.length)
    else checkEach check members fields
  | aggregate (.sequence k) members, .sequence l count element =>
    if k ≠ l then .error (.shapeMismatch v.kindName v.display ty)
    else if members.length ≠ count then .error (.elementCount members.length ty)
    else checkAll check element members
  | v, ty =>
    if v.isExpression || v.isLiteralOf ty then .ok ()
    else .error (.shapeMismatch v.kindName v.display ty)

/-- The check of a value against a type, seen to this many levels. -/
def shapeWithin : Nat → SymValue → Ty → Outcome Unit
  | 0 => fun _ _ => .error .storedTooDeep
  | levels + 1 => shapeBy (shapeWithin levels)

/-- The check that a value can be stored at a type. -/
def checkShape (v : SymValue) (ty : Ty) : Outcome Unit := v.shapeWithin (depthLimit + 1) ty

end SymValue

end SymbolicBytes
