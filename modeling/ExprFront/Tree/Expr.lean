import ExprFront.Token.Basic
/-!
# Expression trees

An expression is a literal, a parenthesised grouping, a prefix operator applied to an
operand, a binary operator between two operands (the comma among them), or a condition
`c ? t : e`. Operators keep their whole token. Every node spans a range of offsets of the
text: a literal spans its token and a grouping its parentheses; the other nodes run from the
start of their first part to the end of their last, so their spans are computed, not stored.

A grouping stays a node of its own, so `(a)` and `a` are different trees. Offsets are the
coordinates of the tokens the tree was read from, of whatever type `π` those have.

## Main definitions

* `Span`, `Expr`.
* `Expr.span`: the offsets a node covers.
* `Expr.render`: the debug rendering.
-/

namespace ExprFront

/-- A range of offsets, end exclusive. -/
structure Span (π : Type) where
  /-- The first offset. -/
  start : π
  /-- The offset just past the end. -/
  stop : π
  deriving DecidableEq, Repr, Inhabited

/-- An expression tree over tokens with coordinates of type `π`. -/
inductive Expr (π : Type) where
  /-- A number, string, boolean or nil, with the span of its token. -/
  | literal (value : Literal) (span : Span π)
  /-- An expression in parentheses, with the span from `(` to `)`. -/
  | grouping (inner : Expr π) (span : Span π)
  /-- A prefix `-` or `!` applied to an operand. -/
  | unary (op : Token π) (operand : Expr π)
  /-- A binary operator, comma included, between two operands. -/
  | binary (left : Expr π) (op : Token π) (right : Expr π)
  /-- `cond ? thenBranch : elseBranch`. -/
  | condition (cond thenBranch elseBranch : Expr π)
  deriving DecidableEq, Repr, Inhabited

namespace Expr

variable {π : Type}

/-- The offsets a node covers. -/
def span : Expr π → Span π
  | literal _ s => s
  | grouping _ s => s
  | unary op e => ⟨op.start, e.span.stop⟩
  | binary l _ r => ⟨l.span.start, r.span.stop⟩
  | condition c _ e => ⟨c.span.start, e.span.stop⟩

/-- The debug rendering: literals as the printer writes them, `( e )` for a grouping, the
operator lexeme glued to its operand, binary operators between single spaces and
`c ? t : e`. No parentheses are added, so the rendering need not read back as the same
tree. -/
def render : Expr π → Text
  | literal v _ => v.render
  | grouping e _ => Text.ofString "( " ++ e.render ++ Text.ofString " )"
  | unary op e => op.lexeme ++ e.render
  | binary l op r => l.render ++ Text.ofString " " ++ op.lexeme ++ Text.ofString " " ++ r.render
  | condition c t e =>
    c.render ++ Text.ofString " ? " ++ t.render ++ Text.ofString " : " ++ e.render

end Expr

end ExprFront
