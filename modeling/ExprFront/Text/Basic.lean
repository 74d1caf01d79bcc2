/-!
# Text as UTF-16 code units

Source text, lexemes and messages of the language are sequences of UTF-16 code units. A unit
is a 16-bit word; a code point above U+FFFF takes two units, a high surrogate (U+D800 to
U+DBFF) followed by a low one (U+DC00 to U+DFFF). A surrogate may also stand alone: text read
from outside can hold one, and the scanner then reports it as a character of its own. Every
length, offset and column in the library counts units, so `Text` keeps the units themselves
rather than code points.

## Main definitions

* `Text`: a sequence of units, with `length`, `slice` and `++`.
* `Text.ofString`, `Text.toString`: the bridge to Lean strings, which hold code points.
* `Text.isHighSurrogate`, `Text.isLowSurrogate`: the two halves of a pair.
* `Text.count`, `Text.lastIndexOf?`: what line and column bookkeeping needs.
-/

namespace ExprFront

/-- A text: a finite sequence of UTF-16 code units. -/
structure Text where
  /-- The units, first to last. -/
  units : List UInt16
  deriving DecidableEq, Hashable, Inhabited, Repr

namespace Text

/-- The empty text. -/
def empty : Text := ⟨[]⟩

instance : EmptyCollection Text := ⟨empty⟩

instance : Append Text := ⟨fun a b => ⟨a.units ++ b.units⟩⟩

/-- The number of units. -/
def length (t : Text) : Nat := t.units.length

/-- The units from offset `start` up to, not including, offset `stop`. -/
def slice (t : Text) (start stop : Nat) : Text := ⟨(t.units.drop start).take (stop - start)⟩

/-- A unit is a high surrogate, the first half of a pair. -/
def isHighSurrogate (u : UInt16) : Bool := 0xD800 ≤ u && u ≤ 0xDBFF

/-- A unit is a low surrogate, the second half of a pair. -/
def isLowSurrogate (u : UInt16) : Bool := 0xDC00 ≤ u && u ≤ 0xDFFF

/-- A unit is a surrogate of either half. -/
def isSurrogate (u : UInt16) : Bool := 0xD800 ≤ u && u ≤ 0xDFFF

/-- The units of one code point: itself below U+10000, a surrogate pair above. -/
def unitsOfChar (c : Char) : List UInt16 :=
  let n := c.toNat
  if n < 0x10000 then [n.toUInt16]
  else
    let m := n - 0x10000
    [(0xD800 + m / 0x400).toUInt16, (0xDC00 + m % 0x400).toUInt16]

/-- The text of a Lean string, each code point written as one unit or a pair. -/
def ofString (s : String) : Text := ⟨s.toList.flatMap unitsOfChar⟩

/-- The code points of a list of units: a pair gives the code point it encodes, a unit that is
not a surrogate gives itself, and a lone surrogate, which no code point encodes, gives
U+FFFD. -/
def decode : List UInt16 → List Char
  | [] => []
  | [u] => [if isSurrogate u then '�' else Char.ofNat u.toNat]
  | u :: v :: rest =>
    if isHighSurrogate u && isLowSurrogate v then
      Char.ofNat (0x10000 + (u.toNat - 0xD800) * 0x400 + (v.toNat - 0xDC00)) :: decode rest
    else (if isSurrogate u then '�' else Char.ofNat u.toNat) :: decode (v :: rest)

/-- The Lean string of a text; lone surrogates become U+FFFD. -/
def toString (t : Text) : String := String.ofList (decode t.units)

/-- The text of a number in decimal digits. -/
def ofNat (n : Nat) : Text := ofString (Nat.repr n)

/-- The decimal digits of an integer, after a minus sign when it is negative. -/
def ofInt (i : Int) : Text := if 0 ≤ i then ofNat i.toNat else ofString "-" ++ ofNat i.natAbs

/-- How many units of a text equal `u`. -/
def count (t : Text) (u : UInt16) : Nat := t.units.count u

/-- The offset of the last unit equal to `u`, if there is one. -/
def lastIndexOf? (t : Text) (u : UInt16) : Option Nat :=
  (t.units.zipIdx.filter (fun p => p.1 == u)).getLast?.map (·.2)

/-- Concatenate texts with a separator between neighbours. -/
def intercalate (sep : Text) : List Text → Text
  | [] => empty
  | [t] => t
  | t :: ts => t ++ sep ++ intercalate sep ts

@[simp] theorem length_append (a b : Text) : (a ++ b).length = a.length + b.length :=
  List.length_append

@[simp] theorem units_append (a b : Text) : (a ++ b).units = a.units ++ b.units := rfl

end Text

end ExprFront
