import SymbolicBytes.Fault
import SymbolicBytes.Word
/-!
# Instruction sets

An `InstructionSet` runs single instructions on concrete operands. Operands that are poison as a
whole never reach it, and conversions that work on the bytes of a value or on addresses do not
either.

`InstructionSet.standard` has wrapping two's complement integers, IEEE floats, and vectors lane by
lane. A broken promise is poison; a division without result is a fault. Pointer-sized integers wrap
at a width that the set is given, and their results are unsigned. Its scalar functions are
`IntOp.onScalars`, `IntPred.onScalars`, `FloatOp.onScalars`, `FloatPred.onScalars` and
`Cast.onScalar`; `onLanes` and `Cast.onLanes` lift them to vectors.
-/

namespace SymbolicBytes

/-- The instructions, as functions on concrete values. -/
structure InstructionSet where
  /-- the result of an operation on two operands -/
  binary : BinaryOp → Value → Value → Outcome Value
  /-- the result of a conversion of a value from the first type to the second -/
  convert : Cast → Ty → Value → Ty → Outcome Value

/-! ## Integers -/

/-- An integer operation on two operands that are no vectors. -/
def IntOp.onScalars (iptrBits : Nat) (op : IntOp) : Value → Value → Outcome Value
  | .int x, .int y =>
    if h : y.width = x.width then
      match op.onWords x.bits (y.bits.cast (congrArg IntWidth.bits h)) with
      | .value bits => .ok (.int ⟨x.width, bits⟩)
      | .poison => .ok (.poison (.int x.width.bits))
      | .divisionByZero => .error (.divisionByZero op.mnemonic)
      | .overflow => .error (.divisionOverflow op.mnemonic (.int x))
    else .error (.widthMismatch x y)
  | .iptr x, .iptr y =>
    match op.onWords (BitVec.ofInt iptrBits x) (BitVec.ofInt iptrBits y) with
    | .value bits => .ok (.iptr bits.toNat)
    | .poison => .ok (.poison .iptr)
    | .divisionByZero => .error .iptrDivisionByZero
    | .overflow => .error (.divisionOverflow op.mnemonic (.iptr x))
  | v, w => .error (.operands (.int op) v w)

/-- An integer comparison of two operands that are no vectors. Addresses compare as 64-bit words,
whatever their provenance. -/
def IntPred.onScalars (iptrBits : Nat) (pred : IntPred) : Value → Value → Outcome Value
  | .int x, .int y =>
    if h : y.width = x.width then
      .ok (.bit (pred.onWords x.bits (y.bits.cast (congrArg IntWidth.bits h))))
    else .error (.operands (.intCmp pred) (.int x) (.int y))
  | .iptr x, .iptr y =>
    .ok (.bit (pred.onWords (BitVec.ofInt iptrBits x) (BitVec.ofInt iptrBits y)))
  | .address x, .address y => .ok (.bit (pred.onWords x.bits y.bits))
  | v, w => .error (.operands (.intCmp pred) v w)

/-! ## Floats -/

/-- A float operation within one format. -/
def FloatOp.onBits {f : FloatFormat} (op : FloatOp) (x y : FloatBits f) : FloatBits f :=
  match op with
  | .add => FloatFormat.add x y
  | .sub => FloatFormat.sub x y
  | .mul => FloatFormat.mul x y
  | .div => FloatFormat.div x y
  | .rem => FloatFormat.rem x y

/-- A float operation on two operands that are no vectors. -/
def FloatOp.onScalars (op : FloatOp) : Value → Value → Outcome Value
  | .float x, .float y => .ok (.float (op.onBits x y))
  | .double x, .double y => .ok (.double (op.onBits x y))
  | v, w => .error (.operands (.float op) v w)

/-- Whether a comparison holds, given how the operands compare; `none` if one of them is a NaN. -/
def FloatPred.holds : FloatPred → Option Ordering → Bool
  | .never, _ => false
  | .always, _ => true
  | .ord, o => o.isSome
  | .uno, o => o.isNone
  | .oeq, some o | .ueq, some o => o.isEq
  | .ogt, some o | .ugt, some o => o.isGT
  | .oge, some o | .uge, some o => o.isGE
  | .olt, some o | .ult, some o => o.isLT
  | .ole, some o | .ule, some o => o.isLE
  | .one, some o | .une, some o => o.isNe
  | .oeq, none | .ogt, none | .oge, none | .olt, none | .ole, none | .one, none => false
  | .ueq, none | .ugt, none | .uge, none | .ult, none | .ule, none | .une, none => true

/-- A float comparison of two operands that are no vectors. -/
def FloatPred.onScalars (pred : FloatPred) : Value → Value → Outcome Value
  | .float x, .float y => .ok (.bit (pred.holds (FloatFormat.compare? x y)))
  | .double x, .double y => .ok (.bit (pred.holds (FloatFormat.compare? x y)))
  | v, w => .error (.operands (.floatCmp pred) v w)

/-! ## Vectors -/

/-- An operation applied lane by lane to two vectors, and directly to anything else. A poison lane
gives a poison lane, of the type that `poisonTy` makes of the type of the operand's lane. -/
def onLanes (poisonTy : Ty → Ty) (f : Value → Value → Outcome Value) :
    Value → Value → Outcome Value
  | .vector vs, .vector ws =>
    if vs.length = ws.length then
      .vector <$> (vs.zip ws).mapM fun
        | (.poison t, _) => .ok (.poison (poisonTy t))
        | (_, .poison t) => .ok (.poison (poisonTy t))
        | (v, w) => f v w
    else .error (.laneCounts vs.length ws.length)
  | v, w => f v w

/-- The type of a lane of the result where the operand's lane is poison of the type `t`. -/
def BinaryOp.lanePoisonTy (op : BinaryOp) (t : Ty) : Ty := if op.isComparison then .bit else t

/-- An operation on two operands that are no vectors. -/
def BinaryOp.onScalars (iptrBits : Nat) : BinaryOp → Value → Value → Outcome Value
  | .int op => op.onScalars iptrBits
  | .intCmp pred => pred.onScalars iptrBits
  | .float op => op.onScalars
  | .floatCmp pred => pred.onScalars

/-! ## Conversions -/

/-- The low bits of an integer as a value of a fixed width. -/
def fixedWidth (width : Nat) (int : Int) : Outcome Value :=
  match FixedInt.ofInt? width int with
  | some i => .ok (.int i)
  | none => .error (.noIntegerWidth width)

/-- A float cut to an integer type: poison where the integer part does not fit. The bounds of the
type are powers of two as doubles, and the exponent of a bound is a signed 32-bit number. -/
def floatToInteger (twosComplement : Bool) (x : FloatBits .double) : Ty → Outcome Value
  | .int width =>
    let exponent := wrapSigned 32 (if twosComplement then wrapSigned 32 width - 1 else width)
    let high := FloatFormat.powerOfTwo exponent
    let low := if twosComplement then FloatFormat.neg high else FloatFormat.zero .double false
    let whole := FloatFormat.truncate x
    if FloatFormat.atMost low whole && FloatFormat.less whole high then
      fixedWidth width (FloatFormat.toInt whole)
    else .ok (.poison (.int width))
  | ty => .error (.floatIntoNonInteger ty)

/-- A conversion of a value that is no vector. -/
def Cast.onScalar (iptrBits : Nat) : Cast → Value → Ty → Outcome Value
  | .trunc, .int i, .int width | .zext, .int i, .int width => fixedWidth width i.toNat
  | .sext, .int i, .int width => fixedWidth width i.toInt
  | .zext, .int i, .iptr => .ok (.iptr (wrapUnsigned iptrBits i.toNat))
  | .sext, .int i, .iptr => .ok (.iptr (wrapUnsigned iptrBits i.toInt))
  | .trunc, .iptr int, .int width => fixedWidth width int
  | .fptrunc, .double x, .float .float => .ok (.float (FloatFormat.convert .single x))
  | .fpext, .float x, .float .double => .ok (.double (FloatFormat.convert .double x))
  | .uitofp, .int i, .float .float => .ok (.float (FloatFormat.ofInt .single i.toNat))
  | .uitofp, .int i, .float .double => .ok (.double (FloatFormat.ofInt .double i.toNat))
  | .sitofp, .int i, .float .float => .ok (.float (FloatFormat.ofInt .single i.toInt))
  | .sitofp, .int i, .float .double => .ok (.double (FloatFormat.ofInt .double i.toInt))
  | .fptoui, .float x, ty => floatToInteger false (FloatFormat.convert .double x) ty
  | .fptoui, .double x, ty => floatToInteger false x ty
  | .fptosi, .float x, ty => floatToInteger true (FloatFormat.convert .double x) ty
  | .fptosi, .double x, ty => floatToInteger true x ty
  | .addrspacecast, .address a, .pointer => .ok (.address a)
  | .inttoptr, _, _ => .error (.castNeedsBytes .inttoptr)
  | .ptrtoint, _, _ => .error (.castNeedsBytes .ptrtoint)
  | .bitcast, _, _ => .error (.castNeedsBytes .bitcast)
  | cast, v, ty => .error (.valueCast cast v ty)

/-- A conversion of one lane to a type. A poison lane stays poison. -/
def castLane (target : Ty) (f : Value → Outcome Value) : Value → Outcome Value
  | .poison _ => .ok (.poison target)
  | v => f v

/-- A conversion applied lane by lane between vector types, and directly otherwise. -/
def Cast.onLanes (iptrBits : Nat) (cast : Cast) : Ty → Value → Ty → Outcome Value
  | .vector _ source, .vector vs, .vector count target =>
    if vs.length = count then
      .vector <$> vs.mapM (castLane target fun v => cast.onLanes iptrBits source v target)
    else .error (.vectorCastLength vs.length (.vector count target))
  | _, v, target => cast.onScalar iptrBits v target

namespace InstructionSet

/-- The instructions whose pointer-sized integers have `iptrBits` bits. -/
def standard (iptrBits : Nat) : InstructionSet where
  binary op := onLanes op.lanePoisonTy (op.onScalars iptrBits)
  convert cast := cast.onLanes iptrBits

end InstructionSet

end SymbolicBytes
