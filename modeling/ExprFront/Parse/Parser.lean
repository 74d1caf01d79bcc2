import ExprFront.Parse.Expr
/-!
# Parsing a list of tokens

A list of tokens is parsed by dropping its comments, which carry no grammar, and reading one
expression followed by the end of input, with at most 256 condition levels open at once.
The first error stops the parse; no partial tree is returned.

## Main definitions

* `maxNesting`: the nesting limit, 256.
* `dropComments`.
* `parseTokens`.
-/

namespace ExprFront

/-- How many condition levels may be open at once. Past this the parse fails. -/
def maxNesting : Nat := 256

/-- The tokens without the comments. -/
def dropComments {π : Type} (tokens : List (Token π)) : List (Token π) :=
  tokens.filter (fun t => t.kind != .comment)

/-- Parse a whole list of tokens as one expression. -/
def parseTokens {π : Type} [Coord π] (tokens : List (Token π)) :
    Except (ParseError π) (Expr π) :=
  let ts := dropComments tokens
  (Grammar.parseAll (Grammar.Env.ofTokens ts (some maxNesting)) 0 ts).result

end ExprFront
