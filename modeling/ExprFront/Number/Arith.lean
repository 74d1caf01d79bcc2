import ExprFront.Number.Binary64
/-!
# Sums with a count, and comparisons with a count

A finite binary64 value is a ratio of an integer and a power of two. Adding a natural number
to it, or taking one from it, is done exactly on that ratio and then rounded once to the
nearest value, ties to the even significand: binary64 addition is correctly rounded, so this
is its result. A sum that is exactly zero is positive zero, as under rounding to nearest.
An infinity is left as it is by a finite change, and so is NaN.

Comparing a natural number with a value is exact too. Negative zero is zero there, positive
infinity lies above every count, and negative infinity and NaN lie above none.

## Main definitions

* `Binary64.ratio`: a finite value as `num / den`.
* `Binary64.ofIntRatio`: the value nearest to a signed ratio.
* `Binary64.addNat`, `Binary64.subNat`: a count added or taken away, rounded.
* `Binary64.natLe`: a count is at most a value.
-/

namespace ExprFront

namespace Binary64

/-- A finite value as `num / den` with `den` a power of two. The sign goes with `num`, so both
zeros are `0 / den`. -/
def ratio (x : Binary64) : Int × Nat :=
  let m : Int := if x.signBit then -(x.significand : Int) else x.significand
  if 0 ≤ x.exponent then (m * (Nat.pow 2 x.exponent.toNat : Nat), 1)
  else (m, Nat.pow 2 (-x.exponent).toNat)

/-- The value nearest to `num / den`, ties to the even significand, with the sign of `num`;
positive zero when `num = 0`. -/
def ofIntRatio (num : Int) (den : Nat) : Binary64 :=
  if num < 0 then (ofRatio num.natAbs den).neg else ofRatio num.toNat den

/-- `x + n`, rounded to the nearest value. -/
def addNat (x : Binary64) (n : Nat) : Binary64 :=
  if x.isFinite then
    let (num, den) := x.ratio
    ofIntRatio (num + (n * den : Nat)) den
  else x

/-- `x - n`, rounded to the nearest value. -/
def subNat (x : Binary64) (n : Nat) : Binary64 :=
  if x.isFinite then
    let (num, den) := x.ratio
    ofIntRatio (num - (n * den : Nat)) den
  else x

/-- `n ≤ x`, compared exactly. -/
def natLe (n : Nat) (x : Binary64) : Bool :=
  if x.isFinite then
    let (num, den) := x.ratio
    decide (((n * den : Nat) : Int) ≤ num)
  else x.fraction == 0 && !x.signBit

theorem ofIntRatio_zero (den : Nat) : ofIntRatio 0 den = zero := rfl

end Binary64

end ExprFront
