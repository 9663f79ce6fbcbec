import ClassSort.Number.Binary64
import ClassSort.Text.Basic

/-!
# Decimal notation of floating point numbers

Reading takes the nearest number of the format; writing gives the fewest digits
that read back, nearest to the number among those.
-/

namespace ClassSort.Binary64

/-- Whether a character is one of the ten ASCII digits. -/
def isDigit (c : Char) : Bool := '0' ≤ c && c ≤ '9'

/-- The number that a run of digits denotes, continuing from `acc`. -/
def digitsValue (acc : Nat) (ds : Text) : Nat :=
  ds.foldl (fun n d => 10 * n + (d.toNat - '0'.toNat)) acc

/-- An exponent after its letter: an optional sign and at least one digit. -/
def exponentValue? (cs : Text) : Option Int :=
  let (negative, ds) :=
    match cs with
    | '-' :: ds => (true, ds)
    | '+' :: ds => (false, ds)
    | ds => (false, ds)
  if ds.isEmpty || !ds.all isDigit then none
  else
    let n : Int := digitsValue 0 ds
    some (if negative then -n else n)

/-- An unsigned decimal: digits with an optional point, at least one digit, then
optionally an exponent. -/
def decimal? (cs : Text) : Option Magnitude :=
  let whole := cs.takeWhile isDigit
  let rest := cs.dropWhile isDigit
  let (fraction, rest) :=
    match rest with
    | '.' :: r => (r.takeWhile isDigit, r.dropWhile isDigit)
    | r => ([], r)
  if whole.isEmpty && fraction.isEmpty then none
  else
    let coefficient := digitsValue (digitsValue 0 whole) fraction
    let shift : Int := fraction.length
    match rest with
    | [] => some (Magnitude.ofDecimal coefficient (-shift))
    | c :: r =>
      if c == 'e' || c == 'E' then
        (exponentValue? r).map fun e => Magnitude.ofDecimal coefficient (e - shift)
      else none

/-- Reads a number: an optional sign, then a decimal, `inf`, `infinity` or `nan`,
the words in any case. -/
def ofText? (cs : Text) : Option Binary64 :=
  let (negative, body) :=
    match cs with
    | '-' :: r => (true, r)
    | '+' :: r => (false, r)
    | r => (false, r)
  let word := String.ofList (body.map Char.toLower)
  if word = "inf" || word = "infinity" then some ⟨negative, .infinite⟩
  else if word = "nan" then some ⟨negative, .nan⟩
  else (decimal? body).map fun m => ⟨negative, m⟩

/-- Bounds given as ratios, both included when `closed`. -/
structure Interval where
  low : Nat × Nat
  high : Nat × Nat
  closed : Bool

/-- Whether a ratio lies in the interval. -/
def Interval.holds (i : Interval) (num den : Nat) : Bool :=
  let lo := i.low.1 * den
  let hi := num * i.high.2
  if i.closed then lo ≤ num * i.low.2 && hi ≤ i.high.1 * den
  else lo < num * i.low.2 && hi < i.high.1 * den

/-- The reals that round to `m * 2 ^ e`. Below a power of two the numbers are twice
as dense. -/
def roundingInterval (m : Nat) (e : Int) : Interval :=
  let low :=
    if m = Nat.pow 2 52 && Magnitude.minExponent < e then Magnitude.ratio (4 * m - 1) (e - 2)
    else Magnitude.ratio (2 * m - 1) (e - 1)
  ⟨low, Magnitude.ratio (2 * m + 1) (e - 1), m % 2 == 0⟩

/-- The number of decimal places before the point in `num / den`, less one: the
largest `k` with `10 ^ k ≤ num / den`. -/
def decimalExponent (num den : Nat) : Int :=
  if den ≤ num then ((Nat.toDigits 10 (num / den)).length : Int) - 1
  else
    let k := (Nat.toDigits 10 (den / num)).length
    if den ≤ num * Nat.pow 10 (k - 1) then -((k : Int) - 1) else -(k : Int)

/-- Numerator and denominator of `c * 10 ^ k`. -/
def decimalRatio (c : Nat) (k : Int) : Nat × Nat :=
  match k with
  | .ofNat j => (c * Nat.pow 10 j, 1)
  | .negSucc j => (c, Nat.pow 10 (j + 1))

/-- The multiple of `10 ^ k` in the interval that is nearest to `num / den`. -/
def onGrid? (i : Interval) (num den : Nat) (k : Int) : Option Nat :=
  let (n, d) :=
    match k with
    | .ofNat j => (num, den * Nat.pow 10 j)
    | .negSucc j => (num * Nat.pow 10 (j + 1), den)
  let below := n / d
  let fits (c : Nat) : Bool := let (a, b) := decimalRatio c k; i.holds a b
  match fits below, fits (below + 1) with
  | true, true => some (Magnitude.nearest n d)
  | true, false => some below
  | false, true => some (below + 1)
  | false, false => none

/-- The fewest digits that read back, trying `places` more grids from `k` down. -/
def search (i : Interval) (num den : Nat) : Nat → Int → Nat × Int
  | 0, k => ((onGrid? i num den k).getD 0, k)
  | places + 1, k =>
    match onGrid? i num den k with
    | some c => (c, k)
    | none => search i num den places (k - 1)

/-- Drops the zeros at the end of a coefficient. -/
def dropZeros : Nat → Nat → Int → Nat × Int
  | 0, c, k => (c, k)
  | fuel + 1, c, k => if c ≠ 0 && c % 10 == 0 then dropZeros fuel (c / 10) (k + 1) else (c, k)

/-- Coefficient and power of ten of the shortest decimal for `m * 2 ^ e`. -/
def shortest (m : Nat) (e : Int) : Nat × Int :=
  let (num, den) := Magnitude.ratio m e
  let (c, k) := search (roundingInterval m e) num den 17 (decimalExponent num den)
  dropZeros 20 c k

/-- A coefficient with a point after `whole` of its digits. -/
def withPoint (digits : Text) (whole : Nat) : Text := digits.take whole ++ '.' :: digits.drop whole

/-- Writes a finite magnitude. Numbers from `10 ^ -5` up to `10 ^ 16` are written
out, with at least one digit after the point; others get an exponent. -/
def writeFinite (m : Nat) (e : Int) : Text :=
  if m = 0 then "0.0".toList
  else
    let (c, k) := shortest m e
    let digits := Nat.toDigits 10 c
    let point : Int := digits.length + k
    if 0 ≤ k && point ≤ 16 then digits ++ List.replicate k.toNat '0' ++ ['.', '0']
    else if 0 < point && point ≤ 16 then withPoint digits point.toNat
    else if -5 < point && point ≤ 0 then '0' :: '.' :: List.replicate (-point).toNat '0' ++ digits
    else
      let mantissa := if digits.length = 1 then digits else withPoint digits 1
      mantissa ++ 'e' :: (toString (point - 1)).toList

/-- Writes a number; there is no notation for infinity and NaN. -/
def write? (x : Binary64) : Option Text :=
  match x.magnitude with
  | .finite m e => some ((if x.negative then ['-'] else []) ++ writeFinite m e)
  | _ => none

end ClassSort.Binary64
