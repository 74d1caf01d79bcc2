import ExprFront.Number.Shortest
import ExprFront.Text.Basic
/-!
# Writing a number

A number is written from its shortest decimal, `s` with `k` digits scaled so that the decimal
point falls after `n` digits (`n = k + exponent`):

* `k ≤ n ≤ 21`: the digits then `n - k` zeros, `123000`;
* `0 < n ≤ 21`: the digits with a point after the `n`th, `12.3`;
* `-6 < n ≤ 0`: `0.`, then `-n` zeros, then the digits, `0.000123`;
* otherwise exponent form: the first digit, a point and the rest when `k > 1`, then `e`, the
  sign of `n - 1` (always written) and its magnitude, `1e+21`, `1.5e-7`.

Zero of either sign is `0`; a negative value gets `-` in front. Non-finite values are
`Infinity`, `-Infinity` and `NaN`.

## Main definitions

* `Decimal.layout`: the rules above for a positive decimal.
* `Binary64.toText`: the text of any value.
-/

namespace ExprFront

namespace Decimal

/-- The text of a positive decimal with no trailing zero digits. -/
def layout (d : Decimal) : String :=
  let digits := Nat.repr d.digits
  let k : Int := digits.length
  let n : Int := k + d.exponent
  let zeros (j : Int) : String := String.ofList (List.replicate j.toNat '0')
  if k ≤ n ∧ n ≤ 21 then digits ++ zeros (n - k)
  else if 0 < n ∧ n ≤ 21 then
    String.ofList (digits.toList.take n.toNat) ++ "." ++ String.ofList (digits.toList.drop n.toNat)
  else if -6 < n ∧ n ≤ 0 then "0." ++ zeros (-n) ++ digits
  else
    let power := n - 1
    let sign := if 0 ≤ power then "+" else "-"
    let mantissa :=
      if k = 1 then digits
      else String.ofList (digits.toList.take 1) ++ "." ++ String.ofList (digits.toList.drop 1)
    mantissa ++ "e" ++ sign ++ Nat.repr power.natAbs

end Decimal

namespace Binary64

/-- The text of a value: zero as `0`, a finite value from its shortest decimal. -/
def toText (x : Binary64) : Text :=
  if !x.isFinite then
    if x.fraction ≠ 0 then Text.ofString "NaN"
    else if x.signBit then Text.ofString "-Infinity" else Text.ofString "Infinity"
  else if x.isZero then Text.ofString "0"
  else
    let body := x.shortest.layout
    Text.ofString (if x.signBit then "-" ++ body else body)

end Binary64

end ExprFront
