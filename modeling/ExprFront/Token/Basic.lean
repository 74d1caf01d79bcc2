import ExprFront.Token.Kind
import ExprFront.Token.Coord
/-!
# Tokens

A token is a kind, the lexeme it was read from, where that lexeme starts (line and column,
both from one) and the offsets it spans, end exclusive, all in units. The coordinates are of
a type `π` of `Coord`: naturals for the scanner's tokens, binary64 numbers for tokens read
from elsewhere. Numbers, strings,
comments and the keywords `true`, `false` and `nil` also carry a literal; every other token
carries none, which is not the same as carrying the literal `nil`.

A token is written in two ways: as a dump line `line:column KIND "lexeme"` followed by the
literal in JSON when there is one, and as a JSON object whose kind is either the name or the
numeric code of the kind.

## Main definitions

* `Literal`, `Token`.
* `Literal.render`: a literal as the tree printer writes it.
* `Token.dumpLine`, `Token.toJson`.
-/

namespace ExprFront

/-- The value a token carries. -/
inductive Literal where
  /-- A number. -/
  | number (x : Binary64)
  /-- A string. -/
  | string (s : Text)
  /-- `true` or `false`. -/
  | bool (b : Bool)
  /-- The nil value. -/
  | nil
  deriving DecidableEq, Repr, Inhabited

namespace Literal

/-- The literal as JSON. -/
def toJson : Literal → Json
  | number x => .number x
  | string s => .str s
  | bool b => .bool b
  | nil => .null

/-- The literal as the tree printer writes it: strings without quotes. -/
def render : Literal → Text
  | number x => x.toText
  | string s => s
  | bool true => Text.ofString "true"
  | bool false => Text.ofString "false"
  | nil => Text.ofString "nil"

end Literal

/-- The literal a keyword kind carries: `true`, `false` and `nil` only. -/
def TokenKind.keywordLiteral : TokenKind → Option Literal
  | .trueKw => some (.bool true)
  | .falseKw => some (.bool false)
  | .nilKw => some .nil
  | _ => none

/-- A token whose coordinates are of type `π`. -/
structure Token (π : Type) where
  /-- What it is. -/
  kind : TokenKind
  /-- The units it was read from. -/
  lexeme : Text
  /-- The value it carries, if any. -/
  literal : Option Literal
  /-- The line of its first unit, from one. -/
  line : π
  /-- The column of its first unit, from one. -/
  column : π
  /-- The offset of its first unit. -/
  start : π
  /-- The offset just past its last unit. -/
  stop : π
  deriving DecidableEq, Repr, Inhabited

/-- How a token kind is written in JSON: by name, or by numeric code. -/
inductive KindStyle where
  /-- `"LEFT_PAREN"` and so on. -/
  | names
  /-- `0` and so on. -/
  | codes
  deriving DecidableEq, Repr

/-- A kind in JSON, in a given style. -/
def KindStyle.kind : KindStyle → TokenKind → Json
  | .names, k => .str (Text.ofString k.name)
  | .codes, k => .nat k.code

namespace Token

variable {π : Type} [Coord π]

/-- The dump line `line:column KIND "lexeme"`, then a space and the literal in JSON when the
token carries one. -/
def dumpLine (t : Token π) : Text :=
  let head := Coord.toText t.line ++ Text.ofString ":" ++ Coord.toText t.column ++
    Text.ofString " " ++ Text.ofString t.kind.name ++ Text.ofString " " ++ Json.quote t.lexeme
  match t.literal with
  | none => head
  | some v => head ++ Text.ofString " " ++ v.toJson.compact

/-- The token as a JSON object; the literal member is present only when it carries one. -/
def toJson (style : KindStyle) (t : Token π) : Json :=
  .obj ([("kind", style.kind t.kind), ("lexeme", .str t.lexeme), ("line", Coord.toJson t.line),
    ("column", Coord.toJson t.column), ("start", Coord.toJson t.start),
    ("end", Coord.toJson t.stop)] ++
    match t.literal with
    | none => []
    | some v => [("literal", v.toJson)])

end Token

end ExprFront
