import ExprFront.Scan.Basic
import ExprFront.Parse.Parser
/-!
# Scanning and parsing a text

One cycle of the front end: scan the text, and parse its tokens when scanning found no error.
Nothing is shared between cycles.

## Main definitions

* `SourceParse`, `parseSource`.
-/

namespace ExprFront

/-- What a cycle gives: all tokens, all scan errors, and the parse when there were none. -/
structure SourceParse where
  /-- The tokens, comments and the end token included. -/
  tokens : List (Token Nat)
  /-- The scan errors. -/
  errors : List ScanError
  /-- The parse; absent when there were scan errors. -/
  result : Option (Except (ParseError Nat) (Expr Nat))

/-- Scan a text and, when that found no error, parse it. -/
def parseSource (src : Text) : SourceParse :=
  let r := Scan.scan src
  ⟨r.tokens, r.errors, if r.errors.isEmpty then some (parseTokens r.tokens) else none⟩

end ExprFront
