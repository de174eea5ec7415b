import SymbolicBytes.Ieee.Format
/-!
# Arithmetic on floats

The five operations, comparison and the conversions between formats and from and to integers. Each
works on the exact numbers that its operands stand for and rounds once.

A NaN operand makes the result that NaN, quieted, the first operand's before the second's; an
operation without result (infinity minus infinity, zero over zero, a remainder by zero) gives the
default NaN. An exact difference of zero is positive.
-/

namespace SymbolicBytes.FloatFormat

variable {f : FloatFormat}

/-- A mantissa with its sign. -/
def signed (negative : Bool) (mantissa : Nat) : Int := if negative then -mantissa else mantissa

/-- The pattern of a signed number of units `2 ^ exponent`; `zeroNegative` is the sign of zero. -/
def roundSigned (f : FloatFormat) (zeroNegative : Bool) (units : Int) (exponent : Int) :
    FloatBits f :=
  let negative := if units = 0 then zeroNegative else decide (units < 0)
  f.roundScaled negative units.natAbs exponent

/-- The pattern with the other sign. -/
def neg (x : FloatBits f) : FloatBits f := x ^^^ BitVec.twoPow f.width f.magnitudeBits

/-- The result of an operation on operands of which one may be a NaN. -/
def withNaN (x y : FloatBits f) (result : FloatBits f) : FloatBits f :=
  if isNaN x then quiet x else if isNaN y then quiet y else result

/-- The sum of two data, neither of them a NaN. -/
def addData (f : FloatFormat) : FloatDatum → FloatDatum → FloatBits f
  | .infinite s, .infinite t => if s = t then f.infinity s else f.defaultNaN
  | .infinite s, _ => f.infinity s
  | _, .infinite t => f.infinity t
  | .finite s m d, .finite t n e =>
    let last := min d e
    let units := signed s (m <<< (d - last).toNat) + signed t (n <<< (e - last).toNat)
    f.roundSigned (s && t) units last
  | _, _ => f.defaultNaN

/-- The sum. -/
def add (x y : FloatBits f) : FloatBits f := withNaN x y (f.addData (decode x) (decode y))

/-- The difference. -/
def sub (x y : FloatBits f) : FloatBits f := withNaN x y (f.addData (decode x) (decode (neg y)))

/-- The product. -/
def mul (x y : FloatBits f) : FloatBits f :=
  withNaN x y <| match decode x, decode y with
    | .infinite s, .infinite t => f.infinity (s != t)
    | .infinite s, .finite t n _ => if n = 0 then f.defaultNaN else f.infinity (s != t)
    | .finite s m _, .infinite t => if m = 0 then f.defaultNaN else f.infinity (s != t)
    | .finite s m d, .finite t n e => f.roundScaled (s != t) (m * n) (d + e)
    | _, _ => f.defaultNaN

/-- The quotient. -/
def div (x y : FloatBits f) : FloatBits f :=
  withNaN x y <| match decode x, decode y with
    | .infinite _, .infinite _ => f.defaultNaN
    | .infinite s, .finite t _ _ => f.infinity (s != t)
    | .finite s _ _, .infinite t => f.zero (s != t)
    | .finite s m d, .finite t n e =>
      if n = 0 then if m = 0 then f.defaultNaN else f.infinity (s != t)
      else
        let (num, den) := scaleDown m n (e - d)
        f.round (s != t) num den
    | _, _ => f.defaultNaN

/-- The remainder of the division that rounds toward zero. It is exact and has the sign of `x`. -/
def rem (x y : FloatBits f) : FloatBits f :=
  withNaN x y <| match decode x, decode y with
    | .infinite _, _ => f.defaultNaN
    | .finite .., .infinite _ => x
    | .finite s m d, .finite _ n e =>
      if n = 0 then f.defaultNaN
      else
        let last := min d e
        f.roundScaled s (m <<< (d - last).toNat % n <<< (e - last).toNat) last
    | _, _ => f.defaultNaN

/-! ## Comparison -/

/-- The place of a pattern that is no NaN in the order of the numbers; both zeros are at 0. -/
def rank (x : FloatBits f) : Int := signed x.msb (magnitude x)

/-- How two floats compare, unless one is a NaN. -/
def compare? (x y : FloatBits f) : Option Ordering :=
  if isNaN x || isNaN y then none else some (Ord.compare (rank x) (rank y))

/-- Whether `x` is less than `y`. -/
def less (x y : FloatBits f) : Bool := compare? x y == some .lt

/-- Whether `x` is at most `y`. -/
def atMost (x y : FloatBits f) : Bool := less x y || compare? x y == some .eq

/-! ## Conversions -/

/-- The float nearest to an integer. -/
def ofInt (f : FloatFormat) (int : Int) : FloatBits f := f.roundSigned false int 0

/-- The float of the format `g` nearest to `x`. A NaN keeps its sign and the leading bits of its
payload and becomes quiet. -/
def convert (g : FloatFormat) (x : FloatBits f) : FloatBits g :=
  match decode x with
  | .nan =>
    let payload := magnitude x % 1 <<< f.fractionBits
    let kept := payload <<< (g.fractionBits - f.fractionBits)
      >>> (f.fractionBits - g.fractionBits)
    quiet (g.ofMagnitude x.msb (g.infinityMagnitude + kept))
  | .infinite s => g.infinity s
  | .finite s m e => g.roundScaled s m e

/-- The integer part of a float, rounded toward zero; 0 for what is not finite. -/
def toInt (x : FloatBits f) : Int :=
  match decode x with
  | .finite s m e =>
    let (num, den) := scaleDown m 1 (-e)
    signed s (num / den)
  | _ => 0

/-- The float without its fraction. -/
def truncate (x : FloatBits f) : FloatBits f :=
  match decode x with
  | .finite s _ _ => f.roundSigned s (toInt x) 0
  | _ => x

/-- The power `2 ^ k`, infinite for `k` from 1024 on and zero for `k` down from -1024. -/
def powerOfTwo (k : Int) : FloatBits double :=
  if 1024 ≤ k then double.infinity false
  else if k ≤ -1024 then double.zero false
  else double.roundScaled false 1 k

end SymbolicBytes.FloatFormat
