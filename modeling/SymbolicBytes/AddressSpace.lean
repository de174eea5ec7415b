import SymbolicBytes.Fault
/-!
# Address spaces

What a memory knows about its addresses: how an address reads as an integer, which address an
integer stands for, and where an address came from. Nothing here allocates. `flat` and `narrow` are
the two spaces at hand.

Every type with values has one that is zero throughout (`zeroValue`): what an undefined value
becomes when it has to be decided. The address space decides which pointer that is.
-/

namespace SymbolicBytes

/-- The address operations of a memory. -/
structure AddressSpace where
  /-- the integer that an address reads as, its provenance left out -/
  toInt : Address → Int
  /-- the address that an integer stands for, with the provenance it is given -/
  ofInt : Int → Provenance → Outcome Address
  /-- where an address came from -/
  provenance : Address → Provenance
  /-- the provenance of addresses made from integers -/
  wildcard : Provenance
  /-- the provenance of the null address -/
  nil : Provenance

namespace AddressSpace

/-- The null address. -/
def null (space : AddressSpace) : Outcome Address := space.ofInt 0 space.nil

/-- Addresses are 64-bit numbers; an integer stands for the address of its low bits. -/
def flat : AddressSpace where
  toInt a := a.bits.toNat
  ofInt int provenance := .ok ⟨BitVec.ofInt 64 int, provenance⟩
  provenance a := a.provenance
  wildcard := .wildcard
  nil := .nil

/-- Addresses as in `flat`, of which integers reach only those of 32 bits. -/
def narrow : AddressSpace :=
  { flat with
    ofInt := fun int provenance =>
      if 0 ≤ int ∧ int < UInt32.size then flat.ofInt int provenance
      else .error (.outsideAddressSpace int) }

/-! ## Zero values -/

mutual

/-- The value of the type that is zero in every part. -/
def zeroValue (space : AddressSpace) : Ty → Outcome Value
  | .int width =>
    match FixedInt.zero? width with
    | some zero => .ok (.int zero)
    | none => .error (.noDefault (.int width))
  | .pointer => .address <$> space.null
  | .iptr => .ok (.iptr 0)
  | .float .float => .ok (.float 0)
  | .float .double => .ok (.double 0)
  | .float kind => .error (.noDefault (.float kind))
  | .void => .ok .void
  | .special kind => .error (.noDefault (.special kind))
  | .sequence kind count element =>
    (fun zero => .aggregate (.sequence kind) (List.replicate count zero)) <$>
      zeroValue space element
  | .record kind fields => .aggregate (.record kind) <$> zeroValues space fields

/-- The zero values of the listed types. -/
def zeroValues (space : AddressSpace) : List Ty → Outcome (List Value)
  | [] => .ok []
  | t :: ts => do
    let v ← zeroValue space t
    let vs ← zeroValues space ts
    return v :: vs

end

end AddressSpace

end SymbolicBytes
