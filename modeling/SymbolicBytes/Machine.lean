import SymbolicBytes.AddressSpace
import SymbolicBytes.InstructionSet
import SymbolicBytes.Target
/-!
# Machines

A `Machine` is everything that the meaning of bytes depends on: the target, the address space and
the instructions. It holds no state; store ids come from the supply that an operation is handed. An
operation keeps no log of its way: its outcome and the ids that are left are all there is to tell.

`Machine.byteAt` reads one byte of a concrete value, and `Machine.ofBytes` builds a value of a type
from all its bytes; both count bytes from the least significant. A part that is poison has poison
bytes, for which `byteAt` answers `none`. What comes back from bytes is poison-free, its pointers
have wildcard provenance and its pointer-sized integers are unsigned.

Members lie end to end. Reading walks over them by their sizes, and building cuts the bytes by the
same sizes.
-/

namespace SymbolicBytes

/-- What turns values into bytes and bytes into values. -/
structure Machine where
  /-- the sizes of types and the order of bytes -/
  target : Target
  /-- the address operations of the memory -/
  addresses : AddressSpace
  /-- the instructions -/
  instructions : InstructionSet

/-- What reading each item gives, in order, up to the first fault; `none` if poison comes first. -/
def gather {α β : Type} (read : α → Outcome (Option β)) : List α → Outcome (Option (List β))
  | [] => .ok (some [])
  | a :: as =>
    match read a with
    | .error fault => .error fault
    | .ok none => .ok none
    | .ok (some b) =>
      match gather read as with
      | .error fault => .error fault
      | .ok none => .ok none
      | .ok (some bs) => .ok (some (b :: bs))

namespace Machine

/-- The machine of a target with flat addresses and the standard instructions. -/
def standard (target : Target) : Machine :=
  ⟨target, .flat, .standard target.pointerBits⟩

variable (machine : Machine)

/-! ## Reading bytes -/

/-- The byte at a position of a scalar. -/
def scalarByte : Scalar → Nat → UInt8
  | .address a => byteOfInt (machine.addresses.toInt a)
  | .int i => byteOfNat i.toNat
  | .iptr int => byteOfInt int
  | .float x => byteOfNat x.toNat
  | .double x => byteOfNat x.toNat

/-- The check that members of an aggregate can be read as a type: it is the same kind of aggregate
and has as many members. -/
def checkMembers (aggregate : Value) (count : Nat) (ty : Ty) : Outcome Unit :=
  if aggregate.aggregateKind?.isSome ∧ aggregate.aggregateKind? = ty.aggregateKind? ∧
      ty.memberCount? = some count then .ok ()
  else .error (.membersMisread aggregate.kindName count ty)

mutual

/-- The byte at a position of a value of a type; `none` if it is poison. -/
def byteAt : Value → Ty → Nat → Outcome (Option UInt8)
  | .scalar s, _, index => .ok (some (machine.scalarByte s index))
  | .aggregate kind members, ty, index => do
    checkMembers (.aggregate kind members) members.length ty
    byteAmong members ty 0 index index
  | .void, _, index => .error (.voidByte index)
  | .poison _, _, _ => .ok none

/-- The byte `offset` of the members of a type from position `position` on, which is the byte
`index` of the whole. -/
def byteAmong : List Value → Ty → Nat → Nat → Nat → Outcome (Option UInt8)
  | [], ty, _, index, _ => .error (.pastEnd index ty)
  | member :: rest, ty, position, index, offset =>
    match ty.member? position with
    | none => .error (.noMember ty position)
    | some memberTy =>
      let size := machine.target.byteSize memberTy
      if offset < size then byteAt member memberTy offset
      else byteAmong rest ty (position + 1) index (offset - size)

end

/-- The byte at a position of an aggregate whose members are given beside it. -/
def memberByte (aggregate : Value) (members : List Value) (ty : Ty) (index : Nat) :
    Outcome (Option UInt8) := do
  checkMembers aggregate members.length ty
  machine.byteAmong members ty 0 index index

/-- All bytes of a value of a type; `none` if one is poison. -/
def bytesOf (v : Value) (ty : Ty) : Outcome (Option (List UInt8)) :=
  gather (machine.byteAt v ty) (List.range (machine.target.byteSize ty))

/-! ## Building values -/

/-- The check that a value of the type can be built from this number of bytes. -/
def checkBytes (ty : Ty) (count : Nat) : Outcome Unit := do
  ty.checkSupported
  let size := machine.target.byteSize ty
  if count = size then .ok () else .error (.byteCount count ty size)

/-- The first `size` bytes, for a member of the type, and the others. -/
def cut (ty : Ty) (size : Nat) (bytes : List UInt8) : Outcome (List UInt8 × List UInt8) :=
  if bytes.length < size then .error (.bytesRanOut ty) else .ok (bytes.splitAt size)

/-- The end of the members, where no byte may be left. -/
def cutEnd (bytes : List UInt8) : Outcome (List Value) :=
  if bytes = [] then .ok [] else .error (.bytesLeftOver bytes.length)

/-- The values of `count` members of one type, each built by `build`. -/
def cutRepeated (ty : Ty) (size : Nat) (build : List UInt8 → Outcome Value) :
    Nat → List UInt8 → Outcome (List Value)
  | 0, bytes => cutEnd bytes
  | count + 1, bytes => do
    let (chunk, rest) ← cut ty size bytes
    let v ← build chunk
    let vs ← cutRepeated ty size build count rest
    return v :: vs

mutual

/-- The value of a type that the bytes spell. -/
def ofBytes (ty : Ty) (bytes : List UInt8) : Outcome Value := do
  machine.checkBytes ty bytes.length
  match ty with
  | .int width =>
    match FixedInt.ofNat? width (natOfBytes bytes) with
    | some i => return .int i
    | none => throw (.noValues (.int width))
  | .pointer => .address <$> machine.addresses.ofInt (natOfBytes bytes) machine.addresses.wildcard
  | .iptr => return .iptr (natOfBytes bytes)
  | .float .float => return .float (BitVec.ofNat _ (natOfBytes bytes))
  | .float .double => return .double (BitVec.ofNat _ (natOfBytes bytes))
  | .float kind => throw (.noValues (.float kind))
  | .void => return .void
  | .special kind => throw (.noValues (.special kind))
  | .sequence kind count element =>
    .aggregate (.sequence kind) <$>
      cutRepeated element (machine.target.byteSize element) (ofBytes element) count bytes
  | .record kind fields => .aggregate (.record kind) <$> membersOfBytes fields bytes

/-- The values of the listed types whose bytes lie end to end. -/
def membersOfBytes : List Ty → List UInt8 → Outcome (List Value)
  | [], bytes => cutEnd bytes
  | t :: ts, bytes => do
    let (chunk, rest) ← cut t (machine.target.byteSize t) bytes
    let v ← ofBytes t chunk
    let vs ← membersOfBytes ts rest
    return v :: vs

end

end Machine

end SymbolicBytes
