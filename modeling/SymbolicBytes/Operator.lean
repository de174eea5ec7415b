/-!
# Operators

The instructions that values are combined with: integer operations with their flags, comparisons of
integers and of floats, float operations, and conversions. `BinaryOp` gathers the four families
with two operands.

Each operator has a `display`, the form in which messages and printed expressions name it.
-/

namespace SymbolicBytes

/-- Integer operations. `nuw` and `nsw` promise that the unsigned and the signed result fit, and
`exact` that nothing is lost to the right; a broken promise makes the result poison. -/
inductive IntOp where
  | add (nuw nsw : Bool)
  | sub (nuw nsw : Bool)
  | mul (nuw nsw : Bool)
  | shl (nuw nsw : Bool)
  | udiv (exact : Bool)
  | sdiv (exact : Bool)
  | lshr (exact : Bool)
  | ashr (exact : Bool)
  | urem
  | srem
  | and
  | or
  | xor
  deriving DecidableEq, Repr

/-- Integer comparisons, `u` for the unsigned and `s` for the two's complement reading. -/
inductive IntPred where
  | eq
  | ne
  | ugt
  | uge
  | ult
  | ule
  | sgt
  | sge
  | slt
  | sle
  deriving DecidableEq, Repr

/-- Float operations. -/
inductive FloatOp where
  | add
  | sub
  | mul
  | div
  | rem
  deriving DecidableEq, Repr

/-- Float comparisons. Those with `o` are false when an operand is a NaN, those with `u` true;
`ord` and `uno` only ask whether one is. -/
inductive FloatPred where
  | never
  | oeq
  | ogt
  | oge
  | olt
  | ole
  | one
  | ord
  | uno
  | ueq
  | ugt
  | uge
  | ult
  | ule
  | une
  | always
  deriving DecidableEq, Repr

/-- Conversions between types. -/
inductive Cast where
  | trunc
  | zext
  | sext
  | fptrunc
  | fpext
  | uitofp
  | sitofp
  | fptoui
  | fptosi
  | inttoptr
  | ptrtoint
  | bitcast
  | addrspacecast
  deriving DecidableEq, Repr

/-- Operations on two operands. -/
inductive BinaryOp where
  | int (op : IntOp)
  | intCmp (pred : IntPred)
  | float (op : FloatOp)
  | floatCmp (pred : FloatPred)
  deriving DecidableEq, Repr

/-- An operator's name with the two flags that it carries. -/
def displayWrapFlags (name : String) (nuw nsw : Bool) : String :=
  name ++ " \x7b nuw: " ++ toString nuw ++ ", nsw: " ++ toString nsw ++ " \x7d"

/-- An operator's name with the one flag that it carries. -/
def displayExactFlag (name : String) (exact : Bool) : String :=
  name ++ " \x7b exact: " ++ toString exact ++ " \x7d"

/-- The operation as messages name it. -/
def IntOp.display : IntOp → String
  | add nuw nsw => displayWrapFlags "Add" nuw nsw
  | sub nuw nsw => displayWrapFlags "Sub" nuw nsw
  | mul nuw nsw => displayWrapFlags "Mul" nuw nsw
  | shl nuw nsw => displayWrapFlags "Shl" nuw nsw
  | udiv exact => displayExactFlag "UDiv" exact
  | sdiv exact => displayExactFlag "SDiv" exact
  | lshr exact => displayExactFlag "LShr" exact
  | ashr exact => displayExactFlag "AShr" exact
  | urem => "URem"
  | srem => "SRem"
  | and => "And"
  | or => "Or"
  | xor => "Xor"

/-- The name of the instruction. -/
def IntOp.mnemonic : IntOp → String
  | add .. => "add"
  | sub .. => "sub"
  | mul .. => "mul"
  | shl .. => "shl"
  | udiv _ => "udiv"
  | sdiv _ => "sdiv"
  | lshr _ => "lshr"
  | ashr _ => "ashr"
  | urem => "urem"
  | srem => "srem"
  | and => "and"
  | or => "or"
  | xor => "xor"

/-- The comparison as messages name it. -/
def IntPred.display : IntPred → String
  | eq => "Eq"
  | ne => "Ne"
  | ugt => "Ugt"
  | uge => "Uge"
  | ult => "Ult"
  | ule => "Ule"
  | sgt => "Sgt"
  | sge => "Sge"
  | slt => "Slt"
  | sle => "Sle"

/-- The operation as messages name it. -/
def FloatOp.display : FloatOp → String
  | add => "FAdd"
  | sub => "FSub"
  | mul => "FMul"
  | div => "FDiv"
  | rem => "FRem"

/-- The comparison as messages name it. -/
def FloatPred.display : FloatPred → String
  | never => "False"
  | oeq => "Oeq"
  | ogt => "Ogt"
  | oge => "Oge"
  | olt => "Olt"
  | ole => "Ole"
  | one => "One"
  | ord => "Ord"
  | uno => "Uno"
  | ueq => "Ueq"
  | ugt => "Ugt"
  | uge => "Uge"
  | ult => "Ult"
  | ule => "Ule"
  | une => "Une"
  | always => "True"

/-- The conversion as messages name it. -/
def Cast.display : Cast → String
  | trunc => "Trunc"
  | zext => "Zext"
  | sext => "Sext"
  | fptrunc => "Fptrunc"
  | fpext => "Fpext"
  | uitofp => "Uitofp"
  | sitofp => "Sitofp"
  | fptoui => "Fptoui"
  | fptosi => "Fptosi"
  | inttoptr => "Inttoptr"
  | ptrtoint => "Ptrtoint"
  | bitcast => "Bitcast"
  | addrspacecast => "Addrspacecast"

namespace BinaryOp

/-- The kind of the expressions built with the operator. -/
def kindName : BinaryOp → String
  | int _ => "ibinop"
  | intCmp _ => "icmp"
  | float _ => "fbinop"
  | floatCmp _ => "fcmp"

/-- The operator within its family, as messages name it. -/
def display : BinaryOp → String
  | int op => op.display
  | intCmp pred => pred.display
  | float op => op.display
  | floatCmp pred => pred.display

/-- The operator as it stands in front of its operands in a printed expression. -/
def head : BinaryOp → String
  | int op => op.display
  | intCmp pred => "icmp " ++ pred.display
  | float op => op.display
  | floatCmp pred => "fcmp " ++ pred.display

/-- Whether the result is a truth value and not a value of the operands' type. -/
def isComparison : BinaryOp → Bool
  | int _ | float _ => false
  | intCmp _ | floatCmp _ => true

end BinaryOp

end SymbolicBytes
