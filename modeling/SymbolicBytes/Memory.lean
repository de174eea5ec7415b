import SymbolicBytes.Machine.Concretize
/-!
# Memory

A memory is a list of symbolic bytes together with the supply of store ids that its stores draw on.
It grows at the end when a store reaches past it.

An operation that fails leaves the bytes as they were; store ids that it took on the way are not
given back.
-/

namespace SymbolicBytes

/-- The list with the items from a position on replaced by others, as many as there are. -/
def overwrite {α : Type} (items : List α) (start : Nat) (new : List α) : List α :=
  items.take start ++ new ++ items.drop (start + new.length)

/-- A memory of symbolic bytes. -/
structure Memory where
  /-- the bytes, by their address -/
  bytes : List SymByte
  /-- the store ids that are left -/
  ids : StoreIds

namespace Memory

/-- The memory without bytes. -/
def empty (ids : StoreIds) : Memory := ⟨[], ids⟩

/-- The `count` bytes from `start` on. -/
def slice (m : Memory) (start count : Nat) : List SymByte := (m.bytes.drop start).take count

/-- The memory after an attempt to get bytes that are to be written at `start`. -/
def commit (m : Memory) (start : Nat) : Outcome (List SymByte) × StoreIds → Outcome Unit × Memory
  | (.ok new, ids) => (.ok (), ⟨overwrite m.bytes start new, ids⟩)
  | (.error fault, ids) => (.error fault, { m with ids := ids })

/-- Stores a value at a type. -/
def store (machine : Machine) (m : Memory) (start : Nat) (v : SymValue) (ty : Ty) :
    Outcome Unit × Memory :=
  m.commit start (machine.encode v ty m.ids)

/-- Loads a value of a type. -/
def load (machine : Machine) (m : Memory) (start count : Nat) (ty : Ty) : Outcome SymValue :=
  machine.decode (m.slice start count) ty

/-- Copies bytes as they are. -/
def copy (m : Memory) (start count dest : Nat) : Memory :=
  { m with bytes := overwrite m.bytes dest (m.slice start count) }

/-- Tags bytes anew where they are. -/
def retag (m : Memory) (start count : Nat) : Outcome Unit × Memory :=
  m.commit start (SymbolicBytes.retag (m.slice start count) m.ids)

/-- Exchanges two bytes. -/
def swap (m : Memory) (a b : Nat) : Memory :=
  match m.bytes[a]?, m.bytes[b]? with
  | some x, some y => { m with bytes := (m.bytes.set a y).set b x }
  | _, _ => m

/-- Takes a store id. -/
def fresh (m : Memory) : Outcome Nat × Memory :=
  let (id, ids) := m.ids.fresh
  (id, { m with ids := ids })

end Memory

end SymbolicBytes
