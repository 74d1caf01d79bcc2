import ExprFront.Token.Basic
/-!
# Parse errors

The parser stops at its first error. There are three: a token of one kind was required and
another found; an expression was required and the token found cannot start one; or the
expression is nested deeper than the limit. Each carries the token found, and is reported at
that token's line and column.

Messages describe kinds and tokens in words: the end of input as `end of input`, a
punctuation kind by its character in quotes, any other kind by its name, and any other token
by its lexeme in quotes.

## Main definitions

* `ParseError`, `ParseError.found`.
* `ParseError.message`, `ParseError.report`.
-/

namespace ExprFront

/-- Why parsing stopped, over tokens with coordinates of type `π`. -/
inductive ParseError (π : Type) where
  /-- A token of kind `expected` was required; `found` came instead. -/
  | unexpectedToken (expected : TokenKind) (found : Token π)
  /-- An expression was required; `found` cannot start one. -/
  | expectedExpression (found : Token π)
  /-- Opening another level at `found` would pass the nesting limit. -/
  | nestingTooDeep (found : Token π) (limit : Nat)
  deriving DecidableEq, Repr, Inhabited

namespace ParseError

variable {π : Type}

/-- The token where parsing stopped. -/
def found : ParseError π → Token π
  | unexpectedToken _ t => t
  | expectedExpression t => t
  | nestingTooDeep t _ => t

/-- The upper-case name of an error's kind. -/
def kindName : ParseError π → String
  | unexpectedToken .. => "UNEXPECTED_TOKEN"
  | expectedExpression .. => "EXPECTED_EXPRESSION"
  | nestingTooDeep .. => "NESTING_TOO_DEEP"

/-- A kind in words. -/
def describeKind (k : TokenKind) : Text :=
  if k = .eof then Text.ofString "end of input"
  else
    match k.symbol? with
    | some c => Text.ofString ("'" ++ c.toString ++ "'")
    | none => Text.ofString k.name

/-- A token in words. -/
def describeToken (t : Token π) : Text :=
  if t.kind = .eof then Text.ofString "end of input"
  else Text.ofString "'" ++ t.lexeme ++ Text.ofString "'"

/-- The message of an error. -/
def message : ParseError π → Text
  | unexpectedToken k t =>
    Text.ofString "expected " ++ describeKind k ++ Text.ofString " but found " ++ describeToken t
  | expectedExpression t => Text.ofString "expected expression but found " ++ describeToken t
  | nestingTooDeep _ n =>
    Text.ofString "expression nested too deeply (limit " ++ Text.ofNat n ++ Text.ofString ")"

/-- The one-line report `[line L:C] Error at 'lexeme': message`, or `at end` when parsing
stopped at the end of input. -/
def report [Coord π] (e : ParseError π) : Text :=
  let t := e.found
  let place :=
    if t.kind = .eof then Text.ofString "at end"
    else Text.ofString "at '" ++ t.lexeme ++ Text.ofString "'"
  Text.ofString "[line " ++ Coord.toText t.line ++ Text.ofString ":" ++ Coord.toText t.column ++
    Text.ofString "] Error " ++ place ++ Text.ofString ": " ++ e.message

end ParseError

end ExprFront
