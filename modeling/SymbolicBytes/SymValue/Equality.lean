import SymbolicBytes.SymValue
/-!
# Equality of symbolic values

Two symbolic values are equal when they are built alike and their scalars have the same bits.
The comparison gives up below a number of levels and answers no, so a value nested too deep is not
even equal to itself. Parents of bytes are one level with the byte, and parents under one reference
are equal without being looked at.

`equalWithin levels` is the comparison with that many levels left. Bytes are *entangled* when they
come from one store and have equal parents: they must be decided together.
-/

namespace SymbolicBytes

/-- Whether two lists match element by element. -/
def allMatch {α : Type} (same : α → α → Bool) : List α → List α → Bool
  | [], [] => true
  | a :: as, b :: bs => same a b && allMatch same as bs
  | _, _ => false

/-- Whether two bytes agree, given how their parents and their positions compare. -/
def SymByte.equalBy (same : SymValue → SymValue → Bool) (a b : SymByte) : Bool :=
  a.storeId == b.storeId && a.ty == b.ty && (a.ref == b.ref || same a.parent b.parent) &&
    same a.index b.index

/-- Whether two values agree, given how the values directly inside them compare. -/
def SymValue.equalBy (same : SymValue → SymValue → Bool) : SymValue → SymValue → Bool
  | .scalar s, .scalar t => s == t
  | .undef s, .undef t => s == t
  | .poison s, .poison t => s == t
  | .void, .void => true
  | .aggregate k vs, .aggregate l ws => k == l && allMatch same vs ws
  | .binary o a b, .binary p c d => o == p && same a c && same b d
  | .cast o s v t, .cast p s' w t' => o == p && s == s' && t == t' && same v w
  | .select a b c, .select d e f => same a d && same b e && same c f
  | .extract v p, .extract w q => p == q && same v w
  | .insert v e p, .insert w f q => p == q && same v w && same e f
  | .byte a, .byte b => a.equalBy same b
  | .concat as s, .concat bs t => s == t && allMatch (SymByte.equalBy same) as bs
  | _, _ => false

/-- Whether two values are equal, seen to this many levels. -/
def SymValue.equalWithin : Nat → SymValue → SymValue → Bool
  | 0 => fun _ _ => false
  | levels + 1 => SymValue.equalBy (equalWithin levels)

/-- Whether two values are equal and not nested beyond the limit. -/
def SymValue.equal (v w : SymValue) : Bool := v.equalWithin (depthLimit + 1) w

namespace SymByte

/-- Whether two bytes have one parent, seen to this many levels where the references differ. -/
def sameParentWithin (levels : Nat) (a b : SymByte) : Bool :=
  a.ref == b.ref || a.parent.equalWithin levels b.parent

/-- Whether two bytes agree in parent, type, position and store. -/
def equal (a b : SymByte) : Bool := a.equalBy (SymValue.equalWithin (depthLimit + 1)) b

/-- Whether two bytes come from one store of one value. -/
def entangled (a b : SymByte) : Bool :=
  a.storeId == b.storeId && a.sameParentWithin (depthLimit + 1) b

end SymByte

end SymbolicBytes
