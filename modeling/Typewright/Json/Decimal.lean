import Typewright.Json.Value

/-!
# Numbers as decimal text

`Double.shortest` gives the fewest decimal digits that still lie among the reals rounding to a
double, and of those the nearest. `Number.text` writes them: positionally while the leading digit's
exponent lies in `-5 … 15`, otherwise with an exponent. `Number.ofDecimal` reads a number.
-/

namespace Typewright

namespace Double

/-- The reals that round to a positive double, in units of `2^(exponent - 1076)`: the value, the
lower end and the upper end. The ends belong to the interval iff the significand is even. -/
structure Rounding where
  value : Nat
  lower : Nat
  upper : Nat
  closed : Bool

/-- Below the least 53-bit significand the neighbour is half as far away. -/
def rounding (x : Double) : Rounding where
  value := 4 * x.significand
  lower := 4 * x.significand - (if x.significand == Nat.pow 2 52 && 0 < x.exponent then 1 else 2)
  upper := 4 * x.significand + 2
  closed := x.significand % 2 == 0

/-- `10^n` as a quotient, for any integer `n`. -/
def decimalUnit (n : Int) : Nat × Nat :=
  if 0 ≤ n then (Nat.pow 10 n.toNat, 1) else (1, Nat.pow 10 n.natAbs)

/-- `2^(exponent - 1076)` as a quotient. -/
def binaryUnit (x : Double) : Nat × Nat :=
  if 1076 ≤ x.exponent then (Nat.pow 2 (x.exponent - 1076), 1)
  else (1, Nat.pow 2 (1076 - x.exponent))

/-- A number of decimal places after which no positive double is still zero. -/
def places : Nat := 400

/-- The number of digits before the point of a positive double; for a double below one, minus the
number of zeros that follow the point. -/
def pointPosition (x : Double) : Int :=
  let (a, b) := x.binaryUnit
  ((Nat.toDigits 10 (Nat.pow 10 places * (4 * x.significand * a) / b)).length : Int) - places

/-- The nearest multiple of `10^unit` that rounds to `x`, if the multiples next to `x` include one;
a tie goes to the even multiple. -/
def onGrid (x : Double) (unit : Int) : Option Nat :=
  let r := x.rounding
  let (a, b) := x.binaryUnit
  let (p, q) := decimalUnit unit
  -- `k · p/q` against `y · a/b`
  let here (y : Nat) : Nat := y * a * q
  let there (k : Nat) : Nat := k * p * b
  let inside (k : Nat) : Bool :=
    if r.closed then here r.lower ≤ there k && there k ≤ here r.upper
    else here r.lower < there k && there k < here r.upper
  let k := here r.value / (p * b)
  let below := here r.value - there k
  let above := there (k + 1) - here r.value
  match inside k, inside (k + 1) with
  | true, true =>
    if below < above || (below == above && k % 2 == 0) then some k else some (k + 1)
  | true, false => some k
  | false, true => some (k + 1)
  | false, false => none

/-- The first grid, from coarse to fine, that holds a decimal rounding to `x`. Seventeen digits
always suffice. -/
def shortestFrom (x : Double) (point : Int) (digits : Nat) : Nat → Nat × Int
  | 0 => (0, 0)
  | more + 1 =>
    match x.onGrid (point - digits) with
    | some k => (k, point - digits)
    | none => shortestFrom x point (digits + 1) more

/-- Takes trailing zeros off a decimal significand. -/
def stripZeros (digits : List Char) (exponent : Int) : List Char × Int :=
  let zeros := digits.reverse.takeWhile (· == '0')
  ((digits.reverse.dropWhile (· == '0')).reverse, exponent + zeros.length)

/-- The shortest digits `d₁ … dₙ` of a positive double and the exponent of `d₁`. -/
def shortest (x : Double) : List Char × Int :=
  let (k, unit) := shortestFrom x x.pointPosition 1 17
  let (digits, unit) := stripZeros (Nat.toDigits 10 k) unit
  (digits, unit + digits.length - 1)

end Double

/-! ## Writing -/

namespace Number

/-- Digits with the exponent of the first: at least one digit stands on either side of the point,
and an exponent is written with its sign. -/
def layout (digits : List Char) (exponent : Int) : List Char :=
  if -5 ≤ exponent && exponent ≤ 15 then
    if 0 ≤ exponent then
      let whole := exponent.toNat + 1
      let fraction := digits.drop whole
      digits.take whole ++ List.replicate (whole - digits.length) '0' ++ ['.'] ++
        (if fraction.isEmpty then ['0'] else fraction)
    else ['0', '.'] ++ List.replicate (exponent.natAbs - 1) '0' ++ digits
  else
    let sign := if exponent < 0 then '-' else '+'
    let fraction := digits.drop 1
    digits.take 1 ++ (if fraction.isEmpty then [] else '.' :: fraction) ++
      'e' :: sign :: Nat.toDigits 10 exponent.natAbs

/-- The text of a number. -/
def text : Number → String
  | .integer n => toString n
  | .double x =>
    let body :=
      if x.isZero then ['0', '.', '0']
      else
        let (digits, exponent) := x.shortest
        layout digits exponent
    String.ofList (if x.negative then '-' :: body else body)

/-! ## Reading -/

/-- Digits taken into a significand as long as it fits 64 bits; the second part holds the digits
that no longer fit. -/
def accumulate (significand : Nat) : List Char → Nat × List Char
  | [] => (significand, [])
  | c :: rest =>
    let next := significand * 10 + (c.toNat - '0'.toNat)
    if next < Nat.pow 2 64 then accumulate next rest else (significand, c :: rest)

/-- A number from its whole digits, fraction digits (absent without a point) and exponent (absent
without one). Whole digits alone give an integer where that fits 64 bits, except for a negative
zero. Otherwise the digits that do not fit a 64-bit significand are dropped. `none` where the
number exceeds every double. -/
def ofDecimal (negative : Bool) (whole : List Char) (fraction : Option (List Char))
    (exponent : Option Int) : Option Number :=
  let (significand, dropped) := accumulate 0 whole
  if dropped.isEmpty && fraction.isNone && exponent.isNone
      && (!negative || (0 < significand && significand ≤ Nat.pow 2 63)) then
    some (.integer (if negative then -(significand : Int) else significand))
  else
    let digits := fraction.getD []
    let (significand, unused) := accumulate significand digits
    let shift : Int := dropped.length - (digits.length - unused.length : Nat)
    -- a 64-bit significand is far below the largest double
    let x := (Double.ofRatio negative significand 1).getD (.zero negative)
    (x.scale (shift + exponent.getD 0)).map .double

end Number

end Typewright
