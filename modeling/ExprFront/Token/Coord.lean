import ExprFront.Number.Arith
import ExprFront.Json.Basic
/-!
# Coordinates

Lines, columns and offsets are numbers. The scanner counts them in naturals, but tokens handed
to the parser from elsewhere may carry any binary64 number there, fractions and negative
values included, and the parser keeps them as they are. It looks at a coordinate in three
places only: the end-of-input token past the last token is placed by adding counts to that
token's line and column; a node's location compares an offset with the line starts of a text
and subtracts one of them; and every coordinate is written out, in JSON and in messages.
`Coord` is what those places need.

Naturals and integers do this exactly. Binary64 coordinates round every sum and difference to
the nearest value and are written as numbers are (`1.5`, `1e+21`); in JSON an infinite one is
`null`.

## Main definitions

* `Coord`: counts as coordinates, moving by a count, comparing with one, writing.
* Instances for `Nat`, `Int` and `Binary64`, and what the first two compute.
-/

namespace ExprFront

/-- What the parser and the tree do with a coordinate. -/
class Coord (π : Type) where
  /-- A count as a coordinate. -/
  ofCount : Nat → π
  /-- A coordinate moved forward by a count. -/
  addCount : π → Nat → π
  /-- A coordinate moved back by a count. -/
  subCount : π → Nat → π
  /-- A count lies at or below the coordinate. -/
  countLe : Nat → π → Bool
  /-- The coordinate in JSON. -/
  toJson : π → Json
  /-- The coordinate in a message. -/
  toText : π → Text

/-- Natural coordinates, as the scanner counts them. Moving back stops at zero, which a
location never needs: it only takes a line start that lies at or below the offset. -/
instance : Coord Nat where
  ofCount n := n
  addCount x n := x + n
  subCount x n := x - n
  countLe n x := decide (n ≤ x)
  toJson := .nat
  toText := Text.ofNat

/-- Integer coordinates, exact on both sides of zero. -/
instance : Coord Int where
  ofCount n := n
  addCount x n := x + n
  subCount x n := x - n
  countLe n x := decide ((n : Int) ≤ x)
  toJson := .int
  toText := Text.ofInt

namespace Coord

@[simp] theorem ofCount_nat (n : Nat) : (ofCount n : Nat) = n := rfl

@[simp] theorem addCount_nat (x n : Nat) : addCount x n = x + n := rfl

@[simp] theorem subCount_nat (x n : Nat) : subCount x n = x - n := rfl

@[simp] theorem countLe_nat (n x : Nat) : countLe n x = decide (n ≤ x) := rfl

@[simp] theorem ofCount_int (n : Nat) : (ofCount n : Int) = n := rfl

@[simp] theorem addCount_int (x : Int) (n : Nat) : addCount x n = x + n := rfl

@[simp] theorem subCount_int (x : Int) (n : Nat) : subCount x n = x - n := rfl

@[simp] theorem countLe_int (n : Nat) (x : Int) : countLe n x = decide ((n : Int) ≤ x) := rfl

end Coord

/-- Binary64 coordinates, each step rounded to the nearest value. -/
instance : Coord Binary64 where
  ofCount := Binary64.ofNat
  addCount := Binary64.addNat
  subCount := Binary64.subNat
  countLe := Binary64.natLe
  toJson := .number
  toText := Binary64.toText

end ExprFront
