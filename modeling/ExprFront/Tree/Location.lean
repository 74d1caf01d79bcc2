import ExprFront.Token.Coord
/-!
# Line and column of an offset

Trees can carry locations: for each end of a node's span, a line counted from one and a
column counted from zero. They are found through a table of the offsets where lines start:
zero, and one past each line feed of the text. The line of an offset is the last line that
starts at or before it, found by binary search; the column is the distance from that start.

The lookup takes an offset of any type of `Coord`, compares it with line starts and
subtracts one of them, as that type does. An offset before the text falls on the first line
with a negative column; one past the end falls on the last line.

## Main definitions

* `LineTable`, `LineTable.ofText`.
* `LineTable.lineIndex`: the binary search.
* `Location`, `LineTable.locate`.
-/

namespace ExprFront

/-- The offsets where the lines of a text start, in increasing order, the first being zero. -/
structure LineTable where
  /-- Zero, then one past each line feed. -/
  starts : Array Nat
  deriving Repr, Inhabited

/-- A line, from one, and a column, from zero, of the type of the offset. -/
structure Location (π : Type) where
  /-- The line, from one. -/
  line : Nat
  /-- The column, from zero; negative only for an offset before the text. -/
  column : π
  deriving DecidableEq, Repr, Inhabited

namespace LineTable

variable {π : Type} [Coord π]

/-- The line starts of a text. -/
def ofText (t : Text) : LineTable :=
  ⟨(0 :: (t.units.zipIdx.filter (fun p => p.1 == 0x0A)).map (fun p => p.2 + 1)).toArray⟩

/-- The start of line `i + 1`, or zero past the table. -/
def startOf (tbl : LineTable) (i : Nat) : Nat := tbl.starts[i]?.getD 0

/-- Search `lo .. hi` for the last index whose start is at or before `offset`: halve the
range, keeping the upper half, from the upper middle `(lo + hi + 1) / 2` on, when that start is
not past `offset`, and the lower half below it otherwise. The upper middle lies above `lo`
and at most at `hi`, so the range shrinks. It is taken on natural numbers; halving by an
unsigned 32-bit shift, `(lo + hi + 1) >>> 1`, gives the same while `lo + hi + 1 < 2^32`, which
holds for the table of every text of fewer than `2^31` units, since no index passes its
length. -/
def search (tbl : LineTable) (offset : π) (lo hi : Nat) : Nat :=
  if lo < hi then
    let mid := (lo + hi + 1) / 2
    if Coord.countLe (tbl.startOf mid) offset then tbl.search offset mid hi
    else tbl.search offset lo (mid - 1)
  else lo
termination_by hi - lo

/-- The index of the line of an offset: the last line starting at or before it, or the first
line when none does. -/
def lineIndex (tbl : LineTable) (offset : π) : Nat := tbl.search offset 0 (tbl.starts.size - 1)

/-- The line and column of an offset. -/
def locate (tbl : LineTable) (offset : π) : Location π :=
  let i := tbl.lineIndex offset
  ⟨i + 1, Coord.subCount offset (tbl.startOf i)⟩

end LineTable

end ExprFront
