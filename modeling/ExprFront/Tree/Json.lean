import ExprFront.Tree.Expr
import ExprFront.Tree.Location
/-!
# Trees as JSON

A node is written as an object: its `type`, `start` and `end` offsets, its parts, and last,
when a line table is given, its `loc`, the locations of both ends of its span. Literals hold
their `value`; groupings their inner `expression`; prefix operators their `operator` token
and `expression`; binary operators `left`, `operator` and `right`; conditions `expression`,
`thenExpression` and `elseExpression`. Operator tokens are written as tokens, their kind in
the style asked for.

## Main definitions

* `Location.toJson`.
* `Expr.typeName`, `Expr.toJson`.
-/

namespace ExprFront

/-- A location as `{line, column}`. -/
def Location.toJson {π : Type} [Coord π] (l : Location π) : Json :=
  .obj [("line", .nat l.line), ("column", Coord.toJson l.column)]

namespace Expr

variable {π : Type} [Coord π]

/-- The name of a node's type. -/
def typeName : Expr π → String
  | literal .. => "Literal"
  | grouping .. => "Grouping"
  | unary .. => "Unary"
  | binary .. => "Binary"
  | condition .. => "Condition"

/-- The `loc` member of a node, when a line table is given. -/
def locField (lines : Option LineTable) (s : Span π) : List (String × Json) :=
  match lines with
  | none => []
  | some tbl =>
    [("loc", .obj [("start", (tbl.locate s.start).toJson), ("end", (tbl.locate s.stop).toJson)])]

/-- A node as JSON, with operator kinds in `style` and locations when `lines` is given. -/
def toJson (style : KindStyle) (lines : Option LineTable) (e : Expr π) : Json :=
  let head : List (String × Json) :=
    [("type", .str (Text.ofString e.typeName)), ("start", Coord.toJson e.span.start),
      ("end", Coord.toJson e.span.stop)]
  let parts : List (String × Json) :=
    match e with
    | literal v _ => [("value", v.toJson)]
    | grouping inner _ => [("expression", inner.toJson style lines)]
    | unary op operand =>
      [("operator", op.toJson style), ("expression", operand.toJson style lines)]
    | binary l op r =>
      [("left", l.toJson style lines), ("operator", op.toJson style),
        ("right", r.toJson style lines)]
    | condition c t f =>
      [("expression", c.toJson style lines), ("thenExpression", t.toJson style lines),
        ("elseExpression", f.toJson style lines)]
  .obj (head ++ parts ++ locField lines e.span)

end Expr

end ExprFront
