import ExprFront.Number.Notation
/-!
# JSON documents

Tokens, trees, errors and literals are reported as JSON. A document is built as a `Json`
value and written in one of two layouts: compact, with no blanks at all, or indented, each
member of an array or object on a line of its own, two spaces deeper per level, with
`"key": value` in objects and `[]`/`{}` for empty containers.

Strings are written between double quotes. The quote and the backslash are escaped, so are
the control units: backspace, form feed, line feed, carriage return and tab by their short
escapes, the others as `\u00xx`. A surrogate that is not half of a pair is written as
`\uXXXX` too, with lowercase hex digits; every other unit, pairs included, is written as it
is. Numbers are written as `Binary64.toText` writes them, except that JSON has no infinities
and no NaN: those are written `null`. Naturals and integers are written in decimal digits.

## Main definitions

* `Json`: a document.
* `Json.quote`: the quoted form of a text.
* `Json.compact`, `Json.indented`: the two layouts.
-/

namespace ExprFront

/-- A JSON document. -/
inductive Json where
  /-- `null`. -/
  | null
  /-- `true` or `false`. -/
  | bool (b : Bool)
  /-- A natural number, written in decimal digits. -/
  | nat (n : Nat)
  /-- An integer, written in decimal digits after a minus sign when negative. -/
  | int (i : Int)
  /-- A binary64 number; `null` when it is not finite. -/
  | number (x : Binary64)
  /-- A string. -/
  | str (s : Text)
  /-- An array. -/
  | arr (items : List Json)
  /-- An object, its members in order. -/
  | obj (fields : List (String × Json))
  deriving Inhabited

namespace Json

/-- The lowercase hexadecimal digit of a number below sixteen. -/
def hexDigit (n : Nat) : UInt16 :=
  if n < 10 then (0x30 + n).toUInt16 else (0x61 + n - 10).toUInt16

/-- `\u` and four lowercase hexadecimal digits. -/
def hexEscape (u : UInt16) : List UInt16 :=
  let n := u.toNat
  [0x5C, 0x75, hexDigit (n / 4096 % 16), hexDigit (n / 256 % 16), hexDigit (n / 16 % 16),
    hexDigit (n % 16)]

/-- The written form of a unit that is not a surrogate. -/
def escapeUnit (u : UInt16) : List UInt16 :=
  match u with
  | 0x22 => [0x5C, 0x22]
  | 0x5C => [0x5C, 0x5C]
  | 0x08 => [0x5C, 0x62]
  | 0x0C => [0x5C, 0x66]
  | 0x0A => [0x5C, 0x6E]
  | 0x0D => [0x5C, 0x72]
  | 0x09 => [0x5C, 0x74]
  | _ => if u < 0x20 then hexEscape u else [u]

/-- The written form of a list of units between the quotes. -/
def escapeUnits : List UInt16 → List UInt16
  | [] => []
  | u :: rest =>
    if Text.isHighSurrogate u then
      match rest with
      | v :: rest' =>
        if Text.isLowSurrogate v then u :: v :: escapeUnits rest'
        else hexEscape u ++ escapeUnits (v :: rest')
      | [] => hexEscape u
    else if Text.isLowSurrogate u then hexEscape u ++ escapeUnits rest
    else escapeUnit u ++ escapeUnits rest

/-- A text between double quotes, escaped. -/
def quote (t : Text) : Text := ⟨0x22 :: escapeUnits t.units ++ [0x22]⟩

/-- A text of ASCII punctuation. -/
def lit (s : String) : Text := Text.ofString s

/-- The written form of a scalar; containers are handled by the layouts. -/
def scalar : Json → Text
  | null => lit "null"
  | bool true => lit "true"
  | bool false => lit "false"
  | nat n => Text.ofNat n
  | int i => Text.ofInt i
  | number x => if x.isFinite then x.toText else lit "null"
  | str s => quote s
  | arr _ => lit "[]"
  | obj _ => lit "\x7b\x7d"

mutual

/-- The compact layout of a value, written in front of `acc`: no blanks anywhere. Writing in
front of what follows keeps the cost linear in the size of the output however deep the
value is. -/
def compactTo : Json → List UInt16 → List UInt16
  | arr items, acc => 0x5B :: compactItemsTo items (0x5D :: acc)
  | obj fields, acc => 0x7B :: compactFieldsTo fields (0x7D :: acc)
  | j, acc => (scalar j).units ++ acc

/-- Array items, separated by commas, in front of `acc`. -/
def compactItemsTo : List Json → List UInt16 → List UInt16
  | [], acc => acc
  | [j], acc => compactTo j acc
  | j :: rest, acc => compactTo j (0x2C :: compactItemsTo rest acc)

/-- Object members, separated by commas, in front of `acc`. -/
def compactFieldsTo : List (String × Json) → List UInt16 → List UInt16
  | [], acc => acc
  | [(k, v)], acc => (quote (lit k)).units ++ 0x3A :: compactTo v acc
  | (k, v) :: rest, acc =>
    (quote (lit k)).units ++ 0x3A :: compactTo v (0x2C :: compactFieldsTo rest acc)

end

/-- The compact layout: no blanks anywhere. -/
def compact (j : Json) : Text := ⟨compactTo j []⟩

/-- Two spaces per level of depth, in front of `acc`. -/
def indentTo (depth : Nat) (acc : List UInt16) : List UInt16 :=
  List.replicate (2 * depth) 0x20 ++ acc

mutual

/-- The indented layout of a value whose first line is already indented to `depth`, in front
of `acc`. A container's members come one per line at `depth + 1`, and its closing bracket on a
line of its own at `depth`; an empty container is `[]` or `{}`. -/
def indentedTo (depth : Nat) : Json → List UInt16 → List UInt16
  | arr [], acc => 0x5B :: 0x5D :: acc
  | obj [], acc => 0x7B :: 0x7D :: acc
  | arr items, acc =>
    0x5B :: 0x0A :: indentedItemsTo depth items (0x0A :: indentTo depth (0x5D :: acc))
  | obj fields, acc =>
    0x7B :: 0x0A :: indentedFieldsTo depth fields (0x0A :: indentTo depth (0x7D :: acc))
  | j, acc => (scalar j).units ++ acc

/-- Array items as lines of a container at `depth`, separated by `,` and a line feed. -/
def indentedItemsTo (depth : Nat) : List Json → List UInt16 → List UInt16
  | [], acc => acc
  | [j], acc => indentTo (depth + 1) (indentedTo (depth + 1) j acc)
  | j :: rest, acc =>
    indentTo (depth + 1) (indentedTo (depth + 1) j (0x2C :: 0x0A :: indentedItemsTo depth rest acc))

/-- Object members as lines of a container at `depth`, `"key": value` each. -/
def indentedFieldsTo (depth : Nat) : List (String × Json) → List UInt16 → List UInt16
  | [], acc => acc
  | [(k, v)], acc =>
    indentTo (depth + 1) ((quote (lit k)).units ++ 0x3A :: 0x20 :: indentedTo (depth + 1) v acc)
  | (k, v) :: rest, acc =>
    indentTo (depth + 1) ((quote (lit k)).units ++ 0x3A :: 0x20 ::
      indentedTo (depth + 1) v (0x2C :: 0x0A :: indentedFieldsTo depth rest acc))

end

/-- The indented layout with two spaces per level. -/
def indented (j : Json) : Text := ⟨indentedTo 0 j []⟩

end Json

end ExprFront
