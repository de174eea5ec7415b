import SymbolicBytes.Proofs.Levels
/-!
# Conversions of decided operands

What a conversion is, told by the value of its operand. `Machine.castTo` converts a value that may
be poison, and deciding a conversion is deciding its operand, one level further in, and converting
that (`concretizeBy_cast`).

A bitcast between different types is made of the bytes of the value: they are read as the other type
(`bitcast_eq_ofBytes`), unless one is poison (`bitcast_eq_poison`).
-/

namespace SymbolicBytes.Machine

variable {machine : Machine} {op op' : Cast} {source target : Ty} {value : SymValue} {v : Value}

/-! ## Reading bytes as another type -/

section Bitcast

variable (hne : source ≠ target) (hsource : source.Supported) (htarget : target.Supported)
  (hsizes : machine.target.byteSize source = machine.target.byteSize target)

include hne hsource htarget hsizes

/-- A byte that is poison makes poison of what the bytes are read as, although other bytes are not.
No part of the result can be told to be free of it. -/
theorem bitcast_eq_poison (h : machine.bytesOf v source = .ok none) :
    machine.bitcast source v target = .ok (.poison target) := by
  rw [bitcast, if_neg hne, (Ty.checkSupported_eq_ok_iff source).2 hsource,
    (Ty.checkSupported_eq_ok_iff target).2 htarget, h]
  simp only [Outcome.ok_bind, hsizes, ne_eq, not_true_eq_false, if_false, Outcome.pure_eq_ok]

theorem bitcast_eq_ofBytes {bytes : List UInt8} (h : machine.bytesOf v source = .ok (some bytes)) :
    machine.bitcast source v target = machine.ofBytes target bytes := by
  rw [bitcast, if_neg hne, (Ty.checkSupported_eq_ok_iff source).2 hsource,
    (Ty.checkSupported_eq_ok_iff target).2 htarget, h]
  simp only [Outcome.ok_bind, hsizes, ne_eq, not_true_eq_false, if_false]

end Bitcast

/-! ## Operands -/

/-- A conversion of a value that may be poison. -/
def castTo (machine : Machine) (op : Cast) (source : Ty) (v : Value) (target : Ty) :
    Outcome Value :=
  if v.isPoison then .ok (.poison target) else machine.convert op source v target

theorem castTo_eq_convert (hv : v.isPoison = false) :
    machine.castTo op source v target = machine.convert op source v target := by
  rw [castTo, hv]
  exact if_neg Bool.false_ne_true

theorem concretizeBy_cast (decide : SymValue → Outcome Value) (op : Cast) (source target : Ty)
    (value : SymValue) :
    machine.concretizeBy decide (.cast op source value target) =
      decide value >>= fun v => machine.castTo op source v target := rfl

theorem concretizeWithin_cast {levels : Nat}
    (hvalue : machine.concretizeWithin levels value = .ok v) (hv : v.isPoison = false) :
    machine.concretizeWithin (levels + 1) (.cast op source value target) =
      machine.convert op source v target := by
  rw [concretizeWithin, concretizeBy_cast, hvalue, Outcome.ok_bind, castTo_eq_convert hv]

/-- With all levels the operand is decided as it is outside of the conversion, unless the one level
that the conversion takes is one too many. -/
theorem concretize_cast (hv : machine.concretize value = .ok v)
    (h : machine.concretize (.cast op source value target) ≠ .error .tooDeep) :
    machine.concretize (.cast op source value target) = machine.castTo op source v target := by
  have hvalue : machine.concretizeWithin (depthLimit + 1) value = .ok v := hv
  rw [concretize_eq_concretizeBy h 0, concretizeBy_cast, hvalue]
  rfl

/-- Of an operand that is decided, two conversions give the same if they do of its value. They are
met at the same depth, so neither is too deep without the other. -/
theorem concretize_cast_congr (hv : machine.concretize value = .ok v)
    (h : machine.castTo op source v target = machine.castTo op' source v target) :
    machine.concretize (.cast op source value target) =
      machine.concretize (.cast op' source value target) := by
  have hvalue : machine.concretizeWithin (depthLimit + 1) value = .ok v := hv
  rw [concretize, concretize, concretizeWithin, concretizeBy_cast, concretizeBy_cast]
  -- the operand has one level less below a conversion, and may be too deep there
  rcases sameUnlessTooDeep_of_le (Nat.le_succ depthLimit) value with hdeep | hsame
  · rw [hdeep]
    rfl
  · rw [hsame, hvalue, Outcome.ok_bind, Outcome.ok_bind, h]

end SymbolicBytes.Machine
