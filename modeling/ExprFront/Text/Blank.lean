import ExprFront.Text.Basic
/-!
# Blank units and trimming

Two places trim text: a line comment's literal loses its leading blanks, a block comment's
literal and a prompt line lose blanks at both ends. The blanks there are the Unicode white
space and line terminators of the BMP: tab, line feed, vertical tab, form feed, carriage
return, space, no-break space, ogham space mark, the spaces U+2000 to U+200A, line and
paragraph separator, narrow no-break space, medium mathematical space, ideographic space and
the byte order mark. U+0085 and U+180E are not among them. All are single units, so trimming
never splits a surrogate pair.

The scanner's own notion of blank is narrower (space, tab, carriage return, line feed) and
lives with the scanner.

## Main definitions

* `Text.isBlank`: the table above.
* `Text.trimStart`, `Text.trimEnd`, `Text.trim`.
-/

namespace ExprFront

namespace Text

/-- A unit is white space or a line terminator in the sense of trimming. -/
def isBlank (u : UInt16) : Bool :=
  (0x09 ≤ u && u ≤ 0x0D) || u == 0x20 || u == 0xA0 || u == 0x1680 ||
  (0x2000 ≤ u && u ≤ 0x200A) || u == 0x2028 || u == 0x2029 || u == 0x202F ||
  u == 0x205F || u == 0x3000 || u == 0xFEFF

/-- The text without its leading blanks. -/
def trimStart (t : Text) : Text := ⟨t.units.dropWhile isBlank⟩

/-- The text without its trailing blanks. -/
def trimEnd (t : Text) : Text := ⟨(t.units.reverse.dropWhile isBlank).reverse⟩

/-- The text without blanks at either end. -/
def trim (t : Text) : Text := (trimStart t).trimEnd

/-- A text is blank when trimming leaves nothing. -/
def isAllBlank (t : Text) : Bool := t.units.all isBlank

theorem trimStart_units (t : Text) : (trimStart t).units = t.units.dropWhile isBlank := rfl

end Text

end ExprFront
