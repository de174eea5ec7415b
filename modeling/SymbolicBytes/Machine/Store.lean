import SymbolicBytes.Machine
import SymbolicBytes.StoreIds
import SymbolicBytes.SymValue.Equality
import SymbolicBytes.SymValue.Shape
/-!
# Storing and loading

Storing does not look inside a value: it becomes one run of bytes which all refer to it, under an
id of its own. Loading such a run whole gives the value back as it was; loading anything else gives
the bytes themselves, as a value that waits to be decided.

`encode` and `decode` have bytes in memory order, everything else has them least significant first.

The bytes of a store know their parent by the id of the store. So no id may be taken twice among
stores whose bytes may meet: two stores under one id would be taken for stores of one parent. A
memory sees to that, since all its stores draw on one supply.
-/

namespace SymbolicBytes.Machine

variable (machine : Machine)

/-- The bytes of a value stored at a type, and the ids that are left. The id that is taken for a
value not made of bytes is also what its bytes know it by, so the supply must not hand out an id
that bytes have which these are ever compared with: it is the one that those were stored from, or
starts above their ids (`StoreIds.above`). -/
def encode (v : SymValue) (ty : Ty) (ids : StoreIds) : Outcome (List SymByte) × StoreIds :=
  let size := machine.target.byteSize ty
  match ty.checkSupported with
  | .error fault => (.error fault, ids)
  | .ok () =>
    match v with
    | .void => (if size = 0 then .ok [] else .error (.voidStored ty size), ids)
    | .concat loaded _ =>
      if loaded.length ≠ size then (.error (.loadedByteCount loaded.length ty size), ids)
      else
        let (tagged, ids) := retag loaded ids
        (machine.target.arrange <$> tagged, ids)
    | .byte b => (.error (.bareByteStored b.display), ids)
    | v =>
      match v.checkShape ty with
      | .error fault => (.error fault, ids)
      | .ok () =>
        match ids.fresh with
        | (.error fault, ids) => (.error fault, ids)
        | (.ok id, ids) =>
          (.ok (machine.target.arrange (SymByte.run v (.stored id) ty id size)), ids)

/-- The parent of bytes that are, in order, all bytes of one store of one value at the type. -/
def intactParent? (bytes : List SymByte) (ty : Ty) : Option SymValue :=
  match bytes with
  | [] => none
  | first :: _ =>
    if bytes.length = machine.target.byteSize ty ∧ first.ty = ty ∧
        bytes.zipIdx.all fun (b, i) =>
          b.entangled first && b.ty == first.ty && b.literalIndex? == some i
    then some first.parent
    else none

/-- The value of a type loaded from bytes. -/
def decode (bytes : List SymByte) (ty : Ty) : Outcome SymValue := do
  ty.checkSupported
  if ty = .void then
    if bytes = [] then return .void else throw (.voidLoaded bytes.length)
  else
    let bytes := machine.target.arrange bytes
    match machine.intactParent? bytes ty with
    | some parent => return parent
    | none => return .concat bytes ty

end SymbolicBytes.Machine
