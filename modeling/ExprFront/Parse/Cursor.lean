import ExprFront.Parse.Parser
/-!
# A parser stepped by hand

The parser can also be driven one operation at a time. Its state is a cursor: the
comment-free tokens, the position of the next token and the nesting depth. The operations
are those the grammar is built from (look at the next token, take it, take it when it has a
given kind, require a kind), recovery after an error, and any grammar level run from the
current position.

Taking a token never passes an end-of-input token. A grammar level that fails leaves the
position where it stopped; the depth is always what it was before.

Recovery (`synchronize`) takes one token, then skips tokens until the end of input, until just
after a `;`, or until a keyword that starts a statement comes next.

## Main definitions

* `Cursor`, `Cursor.ofTokens`.
* `Step`, `StepValue`.
* `Cursor.step`.
-/

namespace ExprFront

/-- The state of a parser over tokens with coordinates of type `π`. -/
structure Cursor (π : Type) where
  /-- The tokens, without comments. -/
  tokens : List (Token π)
  /-- The position of the next token. -/
  pos : Nat
  /-- How many condition levels are open. -/
  depth : Nat
  /-- How many may be open at once. -/
  limit : Option Nat
  deriving Repr

/-- One operation on a cursor. -/
inductive Step where
  /-- The kind of the next token. -/
  | peek
  /-- The next token. -/
  | peekToken
  /-- The token before the position, if any. -/
  | previous
  /-- Take the next token. -/
  | advance
  /-- Whether the next token is the end of input. -/
  | atEof
  /-- Whether the next token has a kind. -/
  | check (k : TokenKind)
  /-- Take the next token if it has one of the kinds. -/
  | matchAny (ks : List TokenKind)
  /-- Take the next token, which must have a kind. -/
  | expect (k : TokenKind)
  /-- Skip to a likely boundary after an error. -/
  | synchronize
  /-- Parse an expression followed by the end of input. -/
  | parse
  /-- Parse an expression. -/
  | expression
  /-- Parse a comma expression. -/
  | comma
  /-- Parse a condition. -/
  | ternary
  /-- Parse a prefix expression. -/
  | unary
  /-- Parse a primary expression. -/
  | primary
  deriving DecidableEq, Repr

/-- What an operation gives. -/
inductive StepValue (π : Type) where
  | kind (k : TokenKind)
  | token (t : Token π)
  /-- A token or nothing. -/
  | maybeToken (t : Option (Token π))
  | bool (b : Bool)
  /-- A required token, or the error of its absence. -/
  | expected (r : Except (ParseError π) (Token π))
  | nothing
  /-- A tree, or the error that stopped it. -/
  | parsed (r : Except (ParseError π) (Expr π))

namespace Cursor

variable {π : Type}

/-- A cursor at the start of a list of tokens, which loses its comments. -/
def ofTokens (tokens : List (Token π)) : Cursor π :=
  ⟨dropComments tokens, 0, 0, some maxNesting⟩

/-- What the grammar functions see. -/
def env [Coord π] (c : Cursor π) : Grammar.Env π := Grammar.Env.ofTokens c.tokens c.limit

/-- The tokens from the position on. -/
def rest (c : Cursor π) : List (Token π) := c.tokens.drop c.pos

/-- The next token. -/
def peekToken [Coord π] (c : Cursor π) : Token π := c.env.peek c.rest

/-- The token before the position, if any. -/
def previous (c : Cursor π) : Option (Token π) :=
  if c.pos = 0 then none else c.tokens[c.pos - 1]?

/-- Take the next token; the position does not move past an end-of-input token. -/
def advance [Coord π] (c : Cursor π) : Token π × Cursor π :=
  let t := c.peekToken
  (t, if t.kind = .eof then c else { c with pos := c.pos + 1 })

/-- How many tokens recovery skips from `rest`, the token before it being `prev`: none at the
end of input, after a `;` or before a keyword that starts a statement. -/
def skipCount (prev : Option (Token π)) : List (Token π) → Nat
  | [] => 0
  | t :: rest =>
    if t.kind = .eof then 0
    else if (prev.map (·.kind)) = some .semicolon then 0
    else if t.kind.startsStatement then 0
    else skipCount (some t) rest + 1

/-- Take one token, then skip to a likely boundary. -/
def synchronize [Coord π] (c : Cursor π) : Cursor π :=
  let c := c.advance.2
  { c with pos := c.pos + skipCount c.previous c.rest }

/-- Run a grammar function from the position: its result, and the cursor moved to where it
stopped. -/
def run [Coord π] (c : Cursor π)
    (f : Grammar.Env π → Nat → (ts : List (Token π)) → Grammar.Parsed ts (Expr π)) :
    Except (ParseError π) (Expr π) × Cursor π :=
  let p := f c.env c.depth c.rest
  (p.result, { c with pos := c.tokens.length - p.rest.length })

/-- Apply one operation. -/
def step [Coord π] (c : Cursor π) : Step → StepValue π × Cursor π
  | .peek => (.kind c.peekToken.kind, c)
  | .peekToken => (.token c.peekToken, c)
  | .previous => (.maybeToken c.previous, c)
  | .advance => let (t, c) := c.advance; (.token t, c)
  | .atEof => (.bool (c.peekToken.kind = .eof), c)
  | .check k => (.bool (c.peekToken.kind = k), c)
  | .matchAny ks =>
    if ks.contains c.peekToken.kind then let (t, c) := c.advance; (.maybeToken (some t), c)
    else (.maybeToken none, c)
  | .expect k =>
    if c.peekToken.kind = k then let (t, c) := c.advance; (.expected (.ok t), c)
    else (.expected (.error (.unexpectedToken k c.peekToken)), c)
  | .synchronize => (.nothing, c.synchronize)
  | .parse => let (r, c) := c.run Grammar.parseAll; (.parsed r, c)
  | .expression | .comma => let (r, c) := c.run Grammar.comma; (.parsed r, c)
  | .ternary => let (r, c) := c.run Grammar.ternary; (.parsed r, c)
  | .unary => let (r, c) := c.run Grammar.unary; (.parsed r, c)
  | .primary => let (r, c) := c.run Grammar.primary; (.parsed r, c)

/-- Apply operations in order, collecting what each gives and the cursor after it. -/
def steps [Coord π] (c : Cursor π) : List Step → List (StepValue π × Cursor π)
  | [] => []
  | s :: more =>
    let (v, c') := c.step s
    (v, c') :: c'.steps more

end Cursor

end ExprFront
