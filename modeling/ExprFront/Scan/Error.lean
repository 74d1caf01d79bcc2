import ExprFront.Token.Basic
/-!
# Scan errors

The scanner does not stop at a lexical error: it records it and goes on, so one run reports
every problem in the text. An error has a kind, the offending lexeme and the line and column
where that lexeme starts. Its message is built from the kind and the lexeme; its one-line
report puts the position in front.

## Main definitions

* `ScanErrorKind`, `ScanError`.
* `ScanError.message`, `ScanError.report`.
-/

namespace ExprFront

/-- What went wrong while scanning. -/
inductive ScanErrorKind where
  /-- A string with no closing quote before the end of the text. -/
  | unterminatedString
  /-- A block comment still open at the end of the text. -/
  | unterminatedBlockComment
  /-- A unit, or surrogate pair, that starts no token. -/
  | unexpectedCharacter
  /-- A number too large to be finite. -/
  | invalidNumber
  deriving DecidableEq, Repr, Inhabited

/-- The upper-case name of a scan error kind. -/
def ScanErrorKind.name : ScanErrorKind → String
  | .unterminatedString => "UNTERMINATED_STRING"
  | .unterminatedBlockComment => "UNTERMINATED_BLOCK_COMMENT"
  | .unexpectedCharacter => "UNEXPECTED_CHARACTER"
  | .invalidNumber => "INVALID_NUMBER"

/-- A lexical error. -/
structure ScanError where
  /-- What went wrong. -/
  kind : ScanErrorKind
  /-- The offending unit, pair or lexeme. -/
  lexeme : Text
  /-- The line where it starts. -/
  line : Nat
  /-- The column where it starts. -/
  column : Nat
  deriving DecidableEq, Repr, Inhabited

namespace ScanError

/-- The message of an error. -/
def message (e : ScanError) : Text :=
  match e.kind with
  | .unterminatedString => Text.ofString "Unterminated string."
  | .unterminatedBlockComment => Text.ofString "Unterminated block comment."
  | .unexpectedCharacter =>
    Text.ofString "Unexpected character '" ++ e.lexeme ++ Text.ofString "'."
  | .invalidNumber => Text.ofString "Invalid number '" ++ e.lexeme ++ Text.ofString "'."

/-- The one-line report `[line L:C] Error: message`. -/
def report (e : ScanError) : Text :=
  Text.ofString "[line " ++ Text.ofNat e.line ++ Text.ofString ":" ++ Text.ofNat e.column ++
    Text.ofString "] Error: " ++ e.message

end ScanError

end ExprFront
