import ExprFront.Number.Binary64
/-!
# Shortest decimal digits of a binary64 value

A number is printed with the fewest significant decimal digits that still read back as the
same value. For a positive finite `x = m * 2^q` the decimals that read back as `x` are those
in its rounding interval: from the midpoint with the value below to the midpoint with the
value above, both ends included when `m` is even (a tie rounds to the even significand).
The value below is half as far away when `x` is the smallest value of its binade, `m = 2^52`
with a normal exponent above the least one. In units of `2^(q-2)` the interval runs from
`4m - 2` (or `4m - 1`) to `4m + 2` around `4m`.

For each digit count `d` from 1 up the candidates are the two multiples of `10^(n-d)` on
either side of `x`, where `10^(n-1) ≤ x < 10^n`; any multiple in the interval makes one of
these two lie in it too. The first `d` with a candidate in the interval gives the answer, the
candidate nearest `x`, the even one on a tie. Seventeen digits always suffice; at seventeen the
nearest candidate is taken in any case, which keeps the search total.

All comparisons are exact: every quantity is a natural number over a common denominator.

## Main definitions

* `Decimal`: digits and a power of ten.
* `Binary64.shortest`: the shortest decimal of the magnitude of a finite value.
-/

namespace ExprFront

/-- The decimal `digits * 10^exponent`. -/
structure Decimal where
  /-- The significant digits, as a number. -/
  digits : Nat
  /-- The power of ten that scales them. -/
  exponent : Int
  deriving DecidableEq, Repr

namespace Decimal

/-- The number of decimal digits of `n`, one for `n < 10`. -/
def digitCount (n : Nat) : Nat :=
  if n < 10 then 1 else digitCount (n / 10) + 1
termination_by n
decreasing_by omega

/-- The same decimal with trailing zero digits moved into the exponent. -/
def normalize (d : Decimal) : Decimal :=
  if d.digits ≠ 0 ∧ d.digits % 10 = 0 then normalize ⟨d.digits / 10, d.exponent + 1⟩ else d
termination_by d.digits
decreasing_by omega

end Decimal

namespace Binary64

/-- A positive finite value and its rounding interval, all as numerators over `den`: the
value is `value / den` and the interval runs from `low / den` to `high / den`. -/
structure Interval where
  /-- Numerator of the value. -/
  value : Nat
  /-- Numerator of the lower end. -/
  low : Nat
  /-- Numerator of the upper end. -/
  high : Nat
  /-- The common denominator. -/
  den : Nat
  /-- Whether the ends read back as the value. -/
  closed : Bool

/-- The rounding interval of the magnitude of a finite value, in units of `2^(q-2)`. -/
def interval (x : Binary64) : Interval :=
  let m := x.significand
  let q := x.exponent
  let narrow := x.fraction = 0 ∧ x.biasedExponent > 1
  let unit := if 2 ≤ q then Nat.pow 2 (q - 2).toNat else 1
  let den := if 2 ≤ q then 1 else Nat.pow 2 (2 - q).toNat
  { value := 4 * m * unit
    low := (if narrow then 4 * m - 1 else 4 * m - 2) * unit
    high := (4 * m + 2) * unit
    den := den
    closed := m % 2 == 0 }

/-- Multipliers `(a, b)` such that `c * 10^e` compares with `y / den` as `c * a` with
`y * b`. -/
def crossScale (e : Int) (den : Nat) : Nat × Nat :=
  if 0 ≤ e then (Nat.pow 10 e.toNat * den, 1) else (den, Nat.pow 10 (-e).toNat)

/-- The decimal `c * 10^e` lies in the rounding interval. -/
def Interval.admits (iv : Interval) (c : Nat) (e : Int) : Bool :=
  let (a, b) := crossScale e iv.den
  if iv.closed then iv.low * b ≤ c * a && c * a ≤ iv.high * b
  else iv.low * b < c * a && c * a < iv.high * b

/-- The least `n` with `value / den < 10^n`. For a value of at least one it is the digit count
of its integer part; below one it is `1 - k`, where `k` is the digit count of
`⌊(den - 1) / value⌋`, since `10^(-k) ≤ value / den < 10^(1-k)` exactly when
`⌈den / value⌉ - 1` has `k` digits. -/
def Interval.scale (iv : Interval) : Int :=
  if iv.den ≤ iv.value then Decimal.digitCount (iv.value / iv.den)
  else 1 - Decimal.digitCount ((iv.den - 1) / iv.value)

/-- The candidate nearer the value among `lo * 10^e` and `(lo + 1) * 10^e`, which lie on
either side of it; the even one when both are equally near. -/
def Interval.nearer (iv : Interval) (lo : Nat) (e : Int) : Nat :=
  let (a, b) := crossScale e iv.den
  let below := iv.value * b - lo * a
  let above := (lo + 1) * a - iv.value * b
  if below < above then lo
  else if above < below then lo + 1
  else if lo % 2 = 0 then lo else lo + 1

/-- Search digit counts `d, d + 1, …, 17` for the first with a candidate in the interval. -/
def Interval.search (iv : Interval) (n : Int) (d : Nat) : Decimal :=
  let e := n - d
  let (a, b) := crossScale e iv.den
  let lo := iv.value * b / a
  let inLo := iv.admits lo e
  let inHi := iv.admits (lo + 1) e
  if 17 ≤ d then ⟨iv.nearer lo e, e⟩
  else if inLo && inHi then ⟨iv.nearer lo e, e⟩
  else if inLo then ⟨lo, e⟩
  else if inHi then ⟨lo + 1, e⟩
  else iv.search n (d + 1)
termination_by 17 - d

/-- The shortest decimal that reads back as the magnitude of a finite nonzero value, with no
trailing zero digits. -/
def shortest (x : Binary64) : Decimal :=
  let iv := x.interval
  (iv.search iv.scale 1).normalize

end Binary64

end ExprFront
