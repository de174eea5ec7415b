import SymbolicBytes.Ieee.Format
/-!
# Decimal text of floats

A finite float is written with the fewest decimal digits that read back as the same float of its
format, and of those digits the nearest to it; of two equally near the greater. The digits stand at
their place, without an exponent and without a point where there is no fraction.

`Rounding` is the interval of numbers that read back as one float. `Rounding.shortest` walks the
decimal grids from the coarse to the fine and stops at the first that has a point in the interval.
It is enough to look at the two grid points around the float itself.
-/

namespace SymbolicBytes

/-- A positive number together with the interval of the numbers that round to it, all three over a
common denominator. -/
structure Rounding where
  /-- the lower end -/
  low : Nat
  /-- the number -/
  value : Nat
  /-- the upper end -/
  high : Nat
  /-- the denominator -/
  den : Nat
  /-- whether the ends round to the number as well -/
  closed : Bool

namespace Rounding

/-- The numbers that round to `mantissa * 2 ^ exponent` in the format `f`: up to half a unit of the
last place away, or a quarter below a power of two, where the places get finer. -/
def ofFloat (f : FloatFormat) (mantissa : Nat) (exponent : Int) : Rounding :=
  let below := if mantissa = 1 <<< f.fractionBits ∧ f.minExponent < exponent then 1 else 2
  let up := 1 <<< (exponent - 2).toNat
  { low := (4 * mantissa - below) * up
    value := 4 * mantissa * up
    high := (4 * mantissa + 2) * up
    den := 1 <<< (2 - exponent).toNat
    closed := mantissa % 2 == 0 }

/-- Whether the multiple `count` of `unit / den` lies in the interval. -/
def holds (r : Rounding) (unit count : Nat) : Bool :=
  if r.closed then r.low ≤ count * unit && count * unit ≤ r.high
  else r.low < count * unit && count * unit < r.high

/-- The multiple of `unit / den` that is nearest to the number among those in the interval, if one
is there. -/
def pick? (r : Rounding) (unit : Nat) : Option Nat :=
  let down := r.value / unit
  match r.holds unit down, r.holds unit (down + 1) with
  | true, true => if (2 * down + 1) * unit ≤ 2 * r.value then some (down + 1) else some down
  | true, false => some down
  | false, true => some (down + 1)
  | false, false => none

/-- The interval stretched by a power of ten. -/
def stretch (r : Rounding) (places : Nat) : Rounding :=
  { r with
    low := r.low * Nat.pow 10 places
    value := r.value * Nat.pow 10 places
    high := r.high * Nat.pow 10 places }

/-- The coarsest grid of multiples of powers of ten, from `10 ^ grids` down to 1, that has a point
in the interval, and that point. -/
def shortest (r : Rounding) : Nat → Nat × Nat
  | 0 => ((r.pick? r.den).getD (r.value / r.den), 0)
  | k + 1 =>
    match r.pick? (r.den * Nat.pow 10 (k + 1)) with
    | some count => (count, k + 1)
    | none => shortest r k

end Rounding

/-- The number `digits / 10 ^ places` without an exponent. -/
def positional (digits places : Nat) : String :=
  if places = 0 then toString digits
  else
    let fraction := toString (digits % Nat.pow 10 places)
    let zeros := String.ofList (List.replicate (places - fraction.length) '0')
    toString (digits / Nat.pow 10 places) ++ "." ++ zeros ++ fraction

/-- The positive number `digits * 10 ^ grid / 10 ^ places` without an exponent, where `digits` does
not end in a zero. -/
def positionalOnGrid (digits grid places : Nat) : String :=
  positional (digits * Nat.pow 10 (grid - places)) (places - grid)

/-- The text of a positive finite number: its shortest digits at their place. -/
def FloatFormat.displayMagnitude (f : FloatFormat) (mantissa : Nat) (exponent : Int) : String :=
  let r := Rounding.ofFloat f mantissa exponent
  -- with this many places every number of the format is an integer
  let places := (2 - exponent).toNat
  let stretched := r.stretch places
  let grids := (toString (stretched.high / stretched.den)).length
  let (digits, grid) := stretched.shortest grids
  positionalOnGrid digits grid places

/-- The text of a float. -/
def FloatFormat.display {f : FloatFormat} (x : FloatBits f) : String :=
  let sign (negative : Bool) := if negative then "-" else ""
  match FloatFormat.decode x with
  | .nan => "NaN"
  | .infinite s => sign s ++ "inf"
  | .finite s m e => if m = 0 then sign s ++ "0" else sign s ++ f.displayMagnitude m e

end SymbolicBytes
