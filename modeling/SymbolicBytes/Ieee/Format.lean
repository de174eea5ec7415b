/-!
# Binary floating point formats

A float is kept as its bit pattern. `FloatFormat.decode` reads a pattern as a datum: a NaN, an
infinity, or a signed multiple of a power of two. `FloatFormat.round` goes the other way, from an
exact quotient of naturals to the nearest pattern, and of two equally near to the one that ends in
a zero. Both are written once for every format, in exact integer arithmetic.

Below the sign, the patterns of a format count its magnitudes in ascending order: zero first, the
finite ones, infinity, and then the NaNs. Rounding and comparison lean on that count.
-/

namespace SymbolicBytes

/-- A binary format with a sign bit, a biased exponent and a fraction. -/
structure FloatFormat where
  /-- the number of exponent bits -/
  exponentBits : Nat
  /-- the number of fraction bits, the hidden leading bit not counted -/
  fractionBits : Nat
  deriving DecidableEq

namespace FloatFormat

/-- The format of `float`. -/
@[reducible] def single : FloatFormat := ⟨8, 23⟩

/-- The format of `double`. -/
@[reducible] def double : FloatFormat := ⟨11, 52⟩

/-- The number of bits of a pattern without its sign. -/
@[reducible] def magnitudeBits (f : FloatFormat) : Nat := f.exponentBits + f.fractionBits

/-- The number of bits of a pattern. -/
@[reducible] def width (f : FloatFormat) : Nat := f.magnitudeBits + 1

end FloatFormat

/-- The bit patterns of a format. -/
abbrev FloatBits (f : FloatFormat) : Type := BitVec f.width

/-- What a bit pattern stands for. -/
inductive FloatDatum where
  /-- not a number -/
  | nan
  /-- an infinity -/
  | infinite (negative : Bool)
  /-- the number `mantissa * 2 ^ exponent`, or its negation; zero keeps its sign -/
  | finite (negative : Bool) (mantissa : Nat) (exponent : Int)
  deriving DecidableEq

namespace FloatFormat

variable (f : FloatFormat)

/-- The exponent of the last place of the smallest magnitudes. -/
def minExponent : Int := 2 - (1 <<< (f.exponentBits - 1) : Nat) - f.fractionBits

/-- The magnitude pattern of infinity; those above it are the NaNs. -/
def infinityMagnitude : Nat := (1 <<< f.exponentBits - 1) <<< f.fractionBits

variable {f}

/-- The pattern without its sign. -/
def magnitude (x : FloatBits f) : Nat := x.toNat % 1 <<< f.magnitudeBits

variable (f)

/-- The pattern of a sign and a magnitude pattern. -/
def ofMagnitude (negative : Bool) (magnitude : Nat) : FloatBits f :=
  BitVec.ofNat f.width (magnitude + if negative then 1 <<< f.magnitudeBits else 0)

/-- Zero with a sign. -/
def zero (negative : Bool) : FloatBits f := f.ofMagnitude negative 0

/-- Infinity with a sign. -/
def infinity (negative : Bool) : FloatBits f := f.ofMagnitude negative f.infinityMagnitude

/-- The bit that tells quiet NaNs from signalling ones. -/
def quietBit : FloatBits f := BitVec.twoPow f.width (f.fractionBits - 1)

/-- The NaN of an operation that has no result. -/
def defaultNaN : FloatBits f := f.infinity true ||| f.quietBit

variable {f}

/-- What a pattern stands for. -/
def decode (x : FloatBits f) : FloatDatum :=
  let m := magnitude x
  let field := m >>> f.fractionBits
  if f.infinityMagnitude < m then .nan
  else if m = f.infinityMagnitude then .infinite x.msb
  else if field = 0 then .finite x.msb m f.minExponent
  else .finite x.msb (m % 1 <<< f.fractionBits + 1 <<< f.fractionBits) (f.minExponent + field - 1)

/-- Whether the pattern is a NaN. -/
def isNaN (x : FloatBits f) : Bool := f.infinityMagnitude < magnitude x

/-- The quiet NaN of the same sign and payload. -/
def quiet (x : FloatBits f) : FloatBits f := x ||| f.quietBit

/-! ## Rounding -/

/-- The quotient of two naturals rounded to the nearest natural, a half to the even neighbour. -/
def divNearest (num den : Nat) : Nat :=
  let q := num / den
  let r := num % den
  if 2 * r < den then q
  else if den < 2 * r then q + 1
  else q + q % 2

/-- `num / (den * 2 ^ k)` as a quotient of naturals. -/
def scaleDown (num den : Nat) (k : Int) : Nat × Nat :=
  if 0 ≤ k then (num, den <<< k.toNat) else (num <<< (-k).toNat, den)

/-- The exponent of the leading binary digit of the positive number `num / den`. -/
def leadingExponent (num den : Nat) : Int :=
  let k : Int := (num.log2 : Int) - den.log2
  let (n, d) := scaleDown num den k
  if d ≤ n then k else k - 1

variable (f)

/-- The pattern nearest to `num / den` with the given sign. Past the largest finite number it is
infinity, and too near zero it is zero. -/
def round (negative : Bool) (num den : Nat) : FloatBits f :=
  if num = 0 then f.zero negative
  else
    let last := max f.minExponent (leadingExponent num den - f.fractionBits)
    let (n, d) := scaleDown num den last
    let m := (last - f.minExponent).toNat <<< f.fractionBits + divNearest n d
    f.ofMagnitude negative (min m f.infinityMagnitude)

/-- The pattern nearest to `mantissa * 2 ^ exponent` with the given sign. -/
def roundScaled (negative : Bool) (mantissa : Nat) (exponent : Int) : FloatBits f :=
  let (n, d) := scaleDown mantissa 1 (-exponent)
  f.round negative n d

end FloatFormat

end SymbolicBytes
