import SymbolicBytes.Partition
import SymbolicBytes.SymValue
/-!
# Store ids

Every store gets an id of its own, so that bytes of two stores are never taken for one. `StoreIds`
is the supply: ids are handed out in ascending order from 1, and the largest number that 32 bits
hold is never handed out. A request that fails takes nothing. Ids of two supplies may clash, so
whatever is stored in one memory takes its ids from one supply, or later from one that starts above
all ids in use (`StoreIds.above`).

Bytes that are stored a second time must not be taken for the store that they came from. `retag`
gives every group of bytes that shared an id a new id of their own, and leaves all else about them.
-/

namespace SymbolicBytes

/-- The supply of store ids that were not handed out yet. -/
structure StoreIds where
  /-- the id that is handed out next -/
  next : Nat
  /-- zero is no id -/
  next_pos : 1 ≤ next
  /-- ids have 32 bits -/
  next_le : next ≤ UInt32.size - 1
  deriving DecidableEq

namespace StoreIds

/-- The bound of the ids, which itself is never handed out. -/
def last : Nat := UInt32.size - 1

/-- The supply of all ids. -/
def all : StoreIds := ⟨1, Nat.le_refl 1, by decide⟩

instance : Inhabited StoreIds := ⟨all⟩

/-- The supply of the ids above `used`. -/
def above (used : Nat) : StoreIds :=
  ⟨min (used + 1) last, Nat.le_min.2 ⟨Nat.le_add_left 1 used, by decide⟩, Nat.min_le_right ..⟩

/-- The next id, and the supply of the others. -/
def fresh (ids : StoreIds) : Outcome Nat × StoreIds :=
  if h : ids.next < last then (.ok ids.next, ⟨ids.next + 1, Nat.le_add_left .., h⟩)
  else (.error (.idsExhausted ids.next), ids)

/-- The next `count` ids. If there are not as many, the ids that there are have been taken. -/
def take : Nat → StoreIds → Outcome (List Nat) × StoreIds
  | 0, ids => (.ok [], ids)
  | count + 1, ids =>
    match ids.fresh with
    | (.error fault, ids) => (.error fault, ids)
    | (.ok id, ids) =>
      match take count ids with
      | (.error fault, ids) => (.error fault, ids)
      | (.ok rest, ids) => (.ok (id :: rest), ids)

end StoreIds

/-! ## Tagging bytes anew -/

/-- Whether two bytes carry one id. -/
def SymByte.sameStore (a b : SymByte) : Bool := a.storeId == b.storeId

/-- The bytes under the ids that their classes were given. -/
def relabel (bytes : List SymByte) (classIds : List (List Nat × Nat)) : Outcome (List SymByte) :=
  bytes.zipIdx.mapM fun (b, i) =>
    match classIds.find? fun c => c.1.contains i with
    | some (_, id) => .ok { b with storeId := id }
    | none => .error (.lostByte i)

/-- The bytes with a new id for every id that occurs among them. -/
def retag (bytes : List SymByte) (ids : StoreIds) : Outcome (List SymByte) × StoreIds :=
  let groups := classes SymByte.sameStore bytes
  match ids.take groups.length with
  | (.error fault, ids) => (.error fault, ids)
  | (.ok fresh, ids) => (relabel bytes (groups.zip fresh), ids)

end SymbolicBytes
