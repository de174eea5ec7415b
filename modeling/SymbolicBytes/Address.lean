/-!
# Addresses

An address is a 64-bit number together with the place that it came from, its provenance. Two
addresses with the same bits are equal only if they came from the same place.
-/

namespace SymbolicBytes

/-- Where an address came from. -/
inductive Provenance where
  /-- from no allocation at all -/
  | nil
  /-- from an integer, so possibly from any allocation -/
  | wildcard
  /-- from the allocation of this number -/
  | allocation (id : Nat)
  deriving DecidableEq, Repr

/-- The provenance as it stands behind an address. -/
def Provenance.display : Provenance → String
  | nil => "nil"
  | wildcard => "*"
  | allocation id => "alloc" ++ toString id

/-- An address and its provenance. -/
structure Address where
  /-- the place in memory -/
  bits : BitVec 64
  /-- where the address came from -/
  provenance : Provenance
  deriving DecidableEq

namespace Address

/-- The address in lower-case hexadecimal, followed by its provenance. -/
def display (a : Address) : String :=
  "ptr 0x" ++ String.ofList (Nat.toDigits 16 a.bits.toNat) ++ " (" ++ a.provenance.display ++ ")"

end Address

end SymbolicBytes
