/-!
# Binary64 values

Number literals hold IEEE 754 binary64 values: a sign, an 11-bit biased exponent and a 52-bit
fraction. The value is kept as its 64 bits, so two values are equal exactly when their bits
are, and negative zero differs from zero.

Reading a decimal rounds it in exact natural-number arithmetic: the ratio `num / den` is
placed in its binade, scaled to a 53-bit significand, rounded half to even, and packed. A
ratio at or above `2^1024 - 2^970`, the midpoint between the largest finite value and
`2^1024`, rounds to infinity; that is how an over-long number literal is recognised.

## Main definitions

* `Binary64`: the bits of a value.
* `Binary64.significand`, `Binary64.exponent`: a finite value is `significand * 2^exponent`.
* `Binary64.ofRatio`: the value nearest to a ratio of naturals.
* `Binary64.ofScientific`: the value nearest to `m * 10^e`.
-/

namespace ExprFront

/-- An IEEE 754 binary64 value, kept as its 64 bits. -/
structure Binary64 where
  /-- Sign bit first, then 11 exponent bits, then 52 fraction bits. -/
  bits : UInt64
  deriving DecidableEq, Hashable, Inhabited, Repr

namespace Binary64

/-- Positive zero. -/
def zero : Binary64 := ⟨0⟩

/-- Positive infinity. -/
def infinity : Binary64 := ⟨0x7FF0000000000000⟩

/-- The sign bit is set: the value is negative or negative zero. -/
def signBit (x : Binary64) : Bool := x.bits >>> 63 == 1

/-- The 11-bit biased exponent field. -/
def biasedExponent (x : Binary64) : Nat := ((x.bits >>> 52) &&& 0x7FF).toNat

/-- The 52-bit fraction field. -/
def fraction (x : Binary64) : Nat := (x.bits &&& 0xFFFFFFFFFFFFF).toNat

/-- The value is neither infinite nor NaN. -/
def isFinite (x : Binary64) : Bool := x.biasedExponent != 0x7FF

/-- The value is zero of either sign. -/
def isZero (x : Binary64) : Bool := x.biasedExponent == 0 && x.fraction == 0

/-- The value with the sign bit flipped. -/
def neg (x : Binary64) : Binary64 := ⟨x.bits ^^^ 0x8000000000000000⟩

/-- The value with the sign bit cleared. -/
def abs (x : Binary64) : Binary64 := ⟨x.bits &&& 0x7FFFFFFFFFFFFFFF⟩

/-- The integer significand of a finite value: the fraction, with the hidden bit `2^52` added
unless the value is subnormal. -/
def significand (x : Binary64) : Nat :=
  if x.biasedExponent = 0 then x.fraction else Nat.pow 2 52 + x.fraction

/-- The power of two that scales the significand of a finite value. -/
def exponent (x : Binary64) : Int :=
  if x.biasedExponent = 0 then -1074 else (x.biasedExponent : Int) - 1075

/-- The positive value `m * 2^q` for a significand `m < 2^53` that is at least `2^52` unless
`q = -1074`, with `q ≤ 971`. -/
def pack (m : Nat) (q : Int) : Binary64 :=
  if m < Nat.pow 2 52 then ⟨m.toUInt64⟩
  else ⟨((q + 1075).toNat * Nat.pow 2 52 + (m - Nat.pow 2 52)).toUInt64⟩

/-- `n / d` rounded to a natural number, half to even. -/
def roundHalfEven (n d : Nat) : Nat :=
  let q := n / d
  let r := n % d
  if 2 * r > d || (2 * r == d && q % 2 == 1) then q + 1 else q

/-- `num / (den * 2^q)`, as a ratio of naturals for either sign of `q`. -/
def scaleDown (num den : Nat) (q : Int) : Nat × Nat :=
  if 0 ≤ q then (num, den * Nat.pow 2 q.toNat) else (num * Nat.pow 2 (-q).toNat, den)

/-- The exponent of the binade of a positive ratio: the `e` with
`2^e ≤ num / den < 2^(e+1)`. With `a` and `b` the binary logarithms of `num` and `den` the
ratio lies strictly between `2^(a-b-1)` and `2^(a-b+1)`, and one comparison decides. -/
def binade (num den : Nat) : Int :=
  let d : Int := (num.log2 : Int) - den.log2
  let (n, k) := scaleDown num den d
  if k ≤ n then d else d - 1

/-- The binary64 value nearest to `num / den`, ties to the even significand; infinity when
that rounds past the largest finite value; zero for `num = 0`. -/
def ofRatio (num den : Nat) : Binary64 :=
  if num = 0 then zero
  else
    let q := max (binade num den - 52) (-1074)
    let (n, k) := scaleDown num den q
    let m := roundHalfEven n k
    let (m, q) := if m = Nat.pow 2 53 then (Nat.pow 2 52, q + 1) else (m, q)
    if q > 971 then infinity else pack m q

/-- The binary64 value nearest to `m * 10^e`. Far exponents are settled without forming
`10^e`: for `m ≠ 0` and `e > 309` the value is at least `10^310`, past the largest finite
value, so it is infinite; and with `2^k ≤ m < 2^(k+1)` and `-e ≥ k + 1076` it is below
`2^(k+1) * 2^e ≤ 2^(-1075)`, half the least subnormal, so it rounds to zero. -/
def ofScientific (m : Nat) (e : Int) : Binary64 :=
  if m = 0 then zero
  else if 309 < e then infinity
  else if (m.log2 : Int) + 1076 ≤ -e then zero
  else if 0 ≤ e then ofRatio (m * Nat.pow 10 e.toNat) 1 else ofRatio m (Nat.pow 10 (-e).toNat)

/-- The binary64 value nearest to a natural number. -/
def ofNat (n : Nat) : Binary64 := ofRatio n 1

theorem ofRatio_zero (den : Nat) : ofRatio 0 den = zero := rfl

end Binary64

end ExprFront
