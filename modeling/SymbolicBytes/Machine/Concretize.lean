import SymbolicBytes.Machine.Store
import SymbolicBytes.Value.Path
/-!
# Deciding symbolic values

`Machine.concretize` turns a symbolic value into a concrete one. An undefined value becomes zero,
and poison makes poison of everything computed from it.

Bytes that are one whole store of a value are that value. Other bytes are resolved class by class,
a class being the bytes of one store: its parent is decided once, every byte reads its position in
that, and the value is built from the results. The first poison makes the whole poison.

The walk gives up below a number of levels. `concretizeBy decide` is one level of it, where
`decide` is the walk over the values directly inside, and `concretizeWithin levels` is the walk
with that many levels left.
-/

namespace SymbolicBytes

/-- The type of the poison that an operation makes of an operand that is poison of a type. -/
def BinaryOp.poisonTy (op : BinaryOp) (operand : Ty) : Ty :=
  if op.isComparison then
    match operand with
    | .vector count _ => .vector count .bit
    | _ => .bit
  else operand

/-- The type of the first operand that is poison, if one is. -/
def poisonOperand? : Value → Value → Option Ty
  | .poison t, _ => some t
  | _, .poison t => some t
  | _, _ => none

namespace Machine

variable (machine : Machine)

/-! ## Conversions of pointers and of bytes -/

/-- A conversion of one pointer, or of one integer to a pointer. -/
def castPointer : Cast → Value → Ty → Outcome Value
  | .ptrtoint, .address a, .iptr =>
    .ok (.iptr (wrapUnsigned machine.target.pointerBits (machine.addresses.toInt a)))
  | .ptrtoint, .address a, .int width =>
    let int := machine.addresses.toInt a
    match FixedInt.ofInt? width int with
    | some i => .ok (.int i)
    | none => .error (.truncationWidth int width)
  | .inttoptr, .int i, .pointer =>
    .address <$> machine.addresses.ofInt i.toNat machine.addresses.wildcard
  | .inttoptr, .iptr int, .pointer =>
    .address <$> machine.addresses.ofInt int machine.addresses.wildcard
  | .addrspacecast, .address a, .pointer =>
    let space := machine.addresses
    .address <$> space.ofInt (space.toInt a) (space.provenance a)
  | cast, v, ty => .error (.pointerCast cast v ty)

/-- A conversion of pointers, lane by lane between vector types and directly otherwise. -/
def castPointers (cast : Cast) : Ty → Value → Ty → Outcome Value
  | .vector _ source, .vector vs, .vector count target =>
    if vs.length = count then
      .vector <$> vs.mapM (castLane target fun v => castPointers cast source v target)
    else .error (.castLaneCount cast vs.length (.vector count target))
  | source, .vector vs, .vector _ _ => .error (.castFromNonVector cast (.vector vs) source)
  | _, v, target => machine.castPointer cast v target

/-- The bytes of a value of one type read as a value of another type of the same size. -/
def bitcast (source : Ty) (v : Value) (target : Ty) : Outcome Value :=
  if source = target then .ok v
  else do
    source.checkSupported
    target.checkSupported
    if machine.target.byteSize source ≠ machine.target.byteSize target then
      throw (.bitcastSizes source target)
    match ← machine.bytesOf v source with
    | some bytes => machine.ofBytes target bytes
    | none => return .poison target

/-- A conversion of a value that is not poison. -/
def convert (cast : Cast) (source : Ty) (v : Value) (target : Ty) : Outcome Value :=
  match cast with
  | .bitcast => machine.bitcast source v target
  | .ptrtoint | .inttoptr | .addrspacecast => machine.castPointers cast source v target
  | _ => machine.instructions.convert cast source v target

/-! ## Choices -/

/-- One lane of a choice: the lane of a branch by a truth value, and poison by poison. -/
def selectLane (ifTrue cond t e : Value) : Outcome Value :=
  match cond with
  | .poison _ =>
    match t.ty? with
    | some ty => .ok (.poison ty)
    | none => .error (.untypedLane ifTrue)
  | .int i =>
    match i.toBool? with
    | some b => .ok (if b then t else e)
    | none => .error (.laneNotBit cond)
  | _ => .error (.laneNotBit cond)

/-- Lane by lane choices, by truth values. -/
def selectLanes (ifTrue : Value) : List Value → List Value → List Value → Outcome (List Value)
  | c :: cs, t :: ts, e :: es => do
    let lane ← selectLane ifTrue c t e
    let lanes ← selectLanes ifTrue cs ts es
    return lane :: lanes
  | _, _, _ => .ok []

/-- A choice by a vector of truth values between two aggregates with as many members. -/
def selectVector (conds : List Value) (ifTrue ifFalse : Value) : Outcome Value :=
  match ifTrue.members?, ifFalse.members? with
  | some ts, some es =>
    if ts.length = conds.length ∧ es.length = conds.length then
      .vector <$> selectLanes ifTrue conds ts es
    else .error (.selectLaneCount conds.length ifTrue ifFalse)
  | _, _ => .error (.selectWithoutLanes ifTrue ifFalse)

/-- A choice. A single truth value decides only the branch that it takes; poison decides the first
branch, for its type. -/
def selectBy (decide : SymValue → Outcome Value) (cond ifTrue ifFalse : SymValue) :
    Outcome Value := do
  match ← decide cond with
  | .int i =>
    match i.toBool? with
    | some b => decide (if b then ifTrue else ifFalse)
    | none => throw (.conditionNotBit (.int i))
  | .poison _ =>
    let v ← decide ifTrue
    match v.ty? with
    | some ty => return .poison ty
    | none => throw (.untypedSelect v)
  | .vector conds =>
    let t ← decide ifTrue
    let e ← decide ifFalse
    selectVector conds t e
  | v => throw (.conditionNotBit v)

/-! ## Bytes -/

/-- The position that a symbolic value stands for; `none` if it is poison. -/
def indexBy (decide : SymValue → Outcome Value) (index : SymValue) : Outcome (Option Nat) := do
  match ← decide index with
  | .int i => return some i.toNat
  | .iptr int => return some (BitVec.ofInt 64 int).toNat
  | .poison _ => return none
  | v => throw (.indexNotInteger v)

/-- The value of one byte, given the value of its parent; `none` if it is poison. -/
def resolveByte (decide : SymValue → Outcome Value) (parent : Value) (b : SymByte) :
    Outcome (Option UInt8) := do
  match ← indexBy decide b.index with
  | some index => machine.byteAt parent b.ty index
  | none => return none

/-- The values of the bytes of one class, with their positions; `none` if one is poison. The parent
of the seed is the parent of all. -/
def resolveClass (decide : SymValue → Outcome Value) (c : ItemClass SymByte) :
    Outcome (Option (List (Nat × UInt8))) := do
  let parent ← decide c.seed.1.parent
  if parent.isPoison then return none
  gather
    (fun (b, i) => do
      let byte ← machine.resolveByte decide parent b
      return byte.map fun value => (i, value))
    c.items

/-- The bytes in the order of their positions. -/
def assemble (count : Nat) (resolved : List (Nat × UInt8)) : Outcome (List UInt8) :=
  (List.range count).mapM fun i =>
    match resolved.lookup i with
    | some byte => .ok byte
    | none => .error (.unresolvedByte i)

/-- The value of a type that symbolic bytes spell. -/
def valueOfBytesBy (decide : SymValue → Outcome Value) (bytes : List SymByte) (ty : Ty) :
    Outcome Value := do
  let size := machine.target.byteSize ty
  if bytes.length ≠ size then throw (.byteCount bytes.length ty size)
  match ← gather (machine.resolveClass decide) (itemClasses SymByte.entangled bytes) with
  | none => return .poison ty
  | some resolved => machine.ofBytes ty (← assemble bytes.length resolved.flatten)

/-! ## Values -/

/-- The concrete value of a symbolic one, given the concrete values of those directly inside it. -/
def concretizeBy (decide : SymValue → Outcome Value) : SymValue → Outcome Value
  | .scalar (.iptr int) => .ok (.iptr (wrapUnsigned machine.target.pointerBits int))
  | .scalar s => .ok (.scalar s)
  | .undef ty => machine.addresses.zeroValue ty
  | .poison ty => .ok (.poison ty)
  | .void => .ok .void
  | .aggregate kind members => .aggregate kind <$> members.mapM decide
  | .binary op left right => do
    let l ← decide left
    let r ← decide right
    match poisonOperand? l r with
    | some ty => return .poison (op.poisonTy ty)
    | none => machine.instructions.binary op l r
  | .cast op source value target => do
    let v ← decide value
    if v.isPoison then return .poison target
    machine.convert op source v target
  | .select cond ifTrue ifFalse => selectBy decide cond ifTrue ifFalse
  | .extract whole path => do
    let v ← decide whole
    v.extractPath path
  | .insert whole element path => do
    let v ← decide whole
    let e ← decide element
    v.insertPath path e
  | .byte b => .error (.bareByteConcretized b.display)
  | .concat bytes ty => do
    ty.checkSupported
    match machine.intactParent? bytes ty with
    | some parent => decide parent
    | none => machine.valueOfBytesBy decide bytes ty

/-- The concrete value of a symbolic one, seen to this many levels. -/
def concretizeWithin : Nat → SymValue → Outcome Value
  | 0 => fun _ => .error .tooDeep
  | levels + 1 => machine.concretizeBy (concretizeWithin levels)

/-- The concrete value of a symbolic one. -/
def concretize (v : SymValue) : Outcome Value := machine.concretizeWithin (depthLimit + 1) v

/-- The number of levels that are left at a depth. -/
def levelsBelow (depth : Nat) : Nat := depthLimit + 1 - depth

/-- The value of a type that symbolic bytes spell, found at a depth inside another value. -/
def valueOfBytes (bytes : List SymByte) (ty : Ty) (depth : Nat) : Outcome Value :=
  machine.valueOfBytesBy (machine.concretizeWithin (levelsBelow depth)) bytes ty

end Machine

end SymbolicBytes
