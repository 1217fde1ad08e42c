/-!
# Finite doubles

A double is kept as its sign, significand and exponent, so that equality is decidable and all
arithmetic on it is exact arithmetic on natural numbers. `Double.ofRatio` rounds a quotient to the
nearest double, a tie to the even neighbour.
-/

namespace Typewright

/-- The finite double `(-1)^negative · significand · 2^(exponent - 1074)`. -/
structure Double where
  negative : Bool
  significand : Nat
  exponent : Nat
deriving DecidableEq, Repr, Inhabited

namespace Double

/-- The form every double produced here has: 53 bits, all of them used unless the exponent is the
least one. -/
def Normal (x : Double) : Prop :=
  x.significand < Nat.pow 2 53 ∧ x.exponent ≤ 2045 ∧
    (x.exponent = 0 ∨ Nat.pow 2 52 ≤ x.significand)

/-- Positive or negative zero. -/
def zero (negative : Bool) : Double := ⟨negative, 0, 0⟩

def isZero (x : Double) : Bool := x.significand == 0

/-- `a / b` to the nearest natural number, a tie to the even one. -/
def roundDiv (a b : Nat) : Nat :=
  let q := a / b
  let r := a % b
  if b < 2 * r || (2 * r == b && q % 2 == 1) then q + 1 else q

/-- `num / den` in units of `2^(exponent - 1074)`, rounded; a carry out of 53 bits moves to the next
exponent. `none` where the exponent is too large for a finite double. -/
def roundAt (num den exponent : Nat) : Option (Nat × Nat) :=
  let q := roundDiv (num * Nat.pow 2 1074) (den * Nat.pow 2 exponent)
  let (q, exponent) := if q == Nat.pow 2 53 then (Nat.pow 2 52, exponent + 1) else (q, exponent)
  if 2045 < exponent then none else some (q, exponent)

/-- The double nearest to `num / den`, a tie to the even significand; `none` where that exceeds
every finite double. -/
def ofRatio (negative : Bool) (num den : Nat) : Option Double :=
  if num == 0 then some (zero negative)
  else
    -- `num / den < 2 ^ bits`, and the quotient has `bits` or `bits - 1` bits before the point
    let bits := (num.log2 : Int) - den.log2 + 1
    let low := (bits - 1 - 53 + 1074).toNat
    let fits := num * Nat.pow 2 1074 < den * Nat.pow 2 (low + 53)
    let exponent := if fits then low else low + 1
    (roundAt num den exponent).map fun (q, e) => ⟨negative, q, e⟩

/-- The magnitude of a double as a quotient of natural numbers. -/
def ratio (x : Double) : Nat × Nat :=
  if 1074 ≤ x.exponent then (x.significand * Nat.pow 2 (x.exponent - 1074), 1)
  else (x.significand, Nat.pow 2 (1074 - x.exponent))

/-- The rounded product of a double and the double `p`. -/
def mul (x p : Double) : Option Double :=
  let (a, b) := x.ratio
  let (c, d) := p.ratio
  ofRatio (x.negative != p.negative) (a * c) (b * d)

/-- The rounded quotient of a double and the nonzero double `p`. -/
def div (x p : Double) : Option Double :=
  let (a, b) := x.ratio
  let (c, d) := p.ratio
  ofRatio (x.negative != p.negative) (a * d) (b * c)

/-- The double nearest to `10^n`, for `n` up to `largest`. -/
def tenPow (n : Nat) : Double := (ofRatio false (Nat.pow 10 n) 1).getD (zero false)

/-- The largest `n` for which `10^n` is a finite double. -/
def largest : Nat := 308

/-- A step down by the largest power of ten that is a finite double. -/
def shrink (x : Double) : Option Double := x.div (tenPow largest)

/-- `x · 10^exponent`, where `x` is multiplied or divided once by a power of ten, both rounded;
below the largest such power the division is done in several steps. `none` where the result is too
large. -/
def scale (x : Double) (exponent : Int) : Option Double :=
  if x.isZero then some x
  else if 0 ≤ exponent then
    if largest < exponent then none else x.mul (tenPow exponent.toNat)
  else if -(largest : Int) ≤ exponent then x.div (tenPow exponent.natAbs)
  else x.shrink.bind fun y => scale y (exponent + largest)
termination_by exponent.natAbs
decreasing_by simp only [largest] at *; omega

end Double

end Typewright
