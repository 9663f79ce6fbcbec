/-!
# Binary floating point, exactly

The numbers of the IEEE 754 format `binary64`, kept as sign, integer mantissa and
power of two, so that reading, scaling and comparing them is exact arithmetic on
integers with one rounding step, `Magnitude.round`.
-/

namespace ClassSort

/-- The absolute value of a floating point number. A finite one is
`mantissa * 2 ^ exponent`. -/
inductive Magnitude where
  | finite (mantissa : Nat) (exponent : Int)
  | infinite
  | nan
deriving Repr, DecidableEq

/-- A floating point number with its sign; zero has two. -/
structure Binary64 where
  negative : Bool
  magnitude : Magnitude
deriving Repr, DecidableEq

namespace Magnitude

/-- The smallest exponent of the format. -/
def minExponent : Int := -1074

/-- The largest exponent of the format. -/
def maxExponent : Int := 971

/-- Zero. -/
def zero : Magnitude := .finite 0 minExponent

/-- Numerator and denominator of `num / den / 2 ^ e`. -/
def scaled (num den : Nat) (e : Int) : Nat × Nat :=
  match e with
  | .ofNat k => (num, den * Nat.pow 2 k)
  | .negSucc k => (num * Nat.pow 2 (k + 1), den)

/-- The integer nearest to `num / den`, the even one of two that are equally near. -/
def nearest (num den : Nat) : Nat :=
  let q := num / den
  let twice := 2 * (num % den)
  if twice < den || (twice == den && q % 2 == 0) then q else q + 1

/-- The exponent at which `num / den` has a mantissa of 53 bits, or the smallest
exponent if the quotient is too small for that. -/
def exponentOf (num den : Nat) : Int :=
  let e : Int := (num.log2 : Int) - (den.log2 : Int) - 53
  let (n, d) := scaled num den e
  max minExponent (if n / d < Nat.pow 2 53 then e else e + 1)

/-- The number of the format nearest to `num / den`, ties to the even mantissa. -/
def round (num den : Nat) : Magnitude :=
  if num = 0 then zero
  else
    let e := exponentOf num den
    let (n, d) := scaled num den e
    let m := nearest n d
    let (m, e) := if m = Nat.pow 2 53 then (Nat.pow 2 52, e + 1) else (m, e)
    if maxExponent < e then .infinite else .finite m e

/-- Numerator and denominator of a finite magnitude. -/
def ratio (m : Nat) (e : Int) : Nat × Nat :=
  match e with
  | .ofNat k => (m * Nat.pow 2 k, 1)
  | .negSucc k => (m, Nat.pow 2 (k + 1))

/-- The number of the format nearest to `coefficient * 10 ^ exponent`. Exponents
that are out of reach whatever the coefficient are decided without computing the
power. -/
def ofDecimal (coefficient : Nat) (exponent : Int) : Magnitude :=
  if coefficient = 0 then zero
  else
    let digits : Int := (Nat.toDigits 10 coefficient).length
    if 400 < exponent + digits then .infinite
    else if exponent + digits < -400 then zero
    else
      match exponent with
      | .ofNat k => round (coefficient * Nat.pow 10 k) 1
      | .negSucc k => round coefficient (Nat.pow 10 (k + 1))

/-- The product, rounded. -/
def mul : Magnitude → Magnitude → Magnitude
  | .finite m e, .finite n f =>
    let (a, b) := ratio m e
    let (c, d) := ratio n f
    round (a * c) (b * d)
  | .nan, _ | _, .nan => .nan
  | .infinite, .finite 0 _ | .finite 0 _, .infinite => .nan
  | .infinite, _ | _, .infinite => .infinite

/-- The quotient, rounded. -/
def div : Magnitude → Magnitude → Magnitude
  | .finite m e, .finite n f =>
    if n = 0 then (if m = 0 then .nan else .infinite)
    else
      let (a, b) := ratio m e
      let (c, d) := ratio n f
      round (a * d) (b * c)
  | .nan, _ | _, .nan | .infinite, .infinite => .nan
  | .infinite, .finite _ _ => .infinite
  | .finite _ _, .infinite => zero

/-- The bits of the format without the sign, read as a number. They grow with the
magnitude, infinity above all finite numbers and NaN above infinity. -/
def bits : Magnitude → Nat
  | .finite m e =>
    if m < Nat.pow 2 52 then m else (e - minExponent + 1).toNat * Nat.pow 2 52 + (m - Nat.pow 2 52)
  | .infinite => 2047 * Nat.pow 2 52
  | .nan => 2047 * Nat.pow 2 52 + Nat.pow 2 51

end Magnitude

namespace Binary64

/-- The number nearest to a natural number. -/
def ofNat (n : Nat) : Binary64 := ⟨false, Magnitude.round n 1⟩

/-- The number with the other sign. -/
def neg (x : Binary64) : Binary64 := { x with negative := !x.negative }

/-- The product, rounded. -/
def mul (x y : Binary64) : Binary64 := ⟨x.negative != y.negative, x.magnitude.mul y.magnitude⟩

/-- Whether the number is neither infinite nor NaN. -/
def isFinite (x : Binary64) : Bool :=
  match x.magnitude with
  | .finite _ _ => true
  | _ => false

/-- A key that orders all numbers: by value, with `-0` below `0`, negative NaN below
everything and NaN above everything. -/
def orderKey (x : Binary64) : Int :=
  if x.negative then -(x.magnitude.bits : Int) - 1 else x.magnitude.bits

end Binary64

end ClassSort
