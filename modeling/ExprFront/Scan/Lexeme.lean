import ExprFront.Scan.Error
import ExprFront.Text.Blank
/-!
# One step of the scanner

The scanner reads the text left to right, one item at a time: blanks, tokens and errors. One
step looks at the first unit `u` and the units after it and says what item starts there and
how many of the following units it takes, always the longest lexeme its class allows:

* space, tab, carriage return and line feed are blank;
* `( ) { } , . - + ; * ? :` are tokens by themselves;
* `! = < >` take a following `=` when there is one;
* `/` starts a line comment when `/` follows, running up to the next line feed (left for the
  next step), and a block comment when `*` follows; block comments nest, and the literal is
  the text between the outer delimiters, trimmed; an unclosed block comment takes the rest of
  the text and is an error with lexeme `/*`;
* `"` starts a string running to the next `"`, across lines, without escapes; with no closing
  quote it takes the rest of the text and is an error;
* a digit starts a number `[0-9]+(.[0-9]+)?`: a point belongs to it only when a digit follows;
  its value is the nearest binary64, and a number whose value is infinite is an error;
* a letter or `_` starts a name `[A-Za-z_][A-Za-z0-9_]*`, a keyword when it spells one;
* anything else is an unexpected character, a high surrogate together with the low surrogate
  after it.

## Main definitions

* `Scan.Item`: what a step finds.
* `Scan.lexAt`: the step itself.
-/

namespace ExprFront

namespace Scan

/-- `0` to `9`. -/
def isDigit (u : UInt16) : Bool := 0x30 ≤ u && u ≤ 0x39

/-- `A` to `Z` and `a` to `z`. -/
def isAlpha (u : UInt16) : Bool := (0x61 ≤ u && u ≤ 0x7A) || (0x41 ≤ u && u ≤ 0x5A)

/-- A unit that can start a name. -/
def isNameStart (u : UInt16) : Bool := u == 0x5F || isAlpha u

/-- A unit that can continue a name. -/
def isNamePart (u : UInt16) : Bool := isNameStart u || isDigit u

/-- The units the scanner skips: space, tab, carriage return and line feed. -/
def isSpace (u : UInt16) : Bool := u == 0x20 || u == 0x09 || u == 0x0D || u == 0x0A

/-- What one step of the scanner finds. -/
inductive Item where
  /-- A blank unit, skipped. -/
  | blank
  /-- A token of a kind, with its literal if it has one. -/
  | token (kind : TokenKind) (literal : Option Literal)
  /-- A lexical error with its lexeme. -/
  | error (kind : ScanErrorKind) (lexeme : Text)
  deriving DecidableEq, Repr

/-- The kind of a unit that is a token by itself. The slash is not among them: it may start a
comment. -/
def singleKind? (u : UInt16) : Option TokenKind :=
  match u with
  | 0x28 => some .leftParen
  | 0x29 => some .rightParen
  | 0x7B => some .leftBrace
  | 0x7D => some .rightBrace
  | 0x2C => some .comma
  | 0x2E => some .dot
  | 0x2D => some .minus
  | 0x2B => some .plus
  | 0x3B => some .semicolon
  | 0x2A => some .star
  | 0x3F => some .question
  | 0x3A => some .colon
  | _ => none

/-- The kinds of `!`, `=`, `<` and `>`: alone, and followed by `=`. -/
def pairKinds? (u : UInt16) : Option (TokenKind × TokenKind) :=
  match u with
  | 0x21 => some (.bang, .bangEqual)
  | 0x3D => some (.equal, .equalEqual)
  | 0x3C => some (.less, .lessEqual)
  | 0x3E => some (.greater, .greaterEqual)
  | _ => none

/-- How many units of the body of a block comment, whose `depth` comments are open and of
which `taken` units are already read, run up to and including the `*/` that closes the
outermost; none when the text ends first. A `/*` opens one more; a `*/` closes one. -/
def closeBlock (depth taken : Nat) : List UInt16 → Option Nat
  | [] => none
  | 0x2F :: 0x2A :: rest => closeBlock (depth + 1) (taken + 2) rest
  | 0x2A :: 0x2F :: rest =>
    if depth ≤ 1 then some (taken + 2) else closeBlock (depth - 1) (taken + 2) rest
  | _ :: rest => closeBlock depth (taken + 1) rest

/-- A comment token whose literal is the given text. -/
def comment (body : Text) : Item := .token .comment (some (.string body))

/-- After a `/`: a line comment, a block comment or the slash itself. -/
def lexSlash (rest : List UInt16) : Item × Nat :=
  match rest with
  | 0x2F :: body =>
    let n := (body.takeWhile (· != 0x0A)).length
    (comment (Text.trimStart ⟨body.take n⟩), n + 1)
  | 0x2A :: body =>
    match closeBlock 1 0 body with
    | some k => (comment (Text.trim ⟨body.take (k - 2)⟩), k + 1)
    | none => (.error .unterminatedBlockComment (Text.ofString "/*"), rest.length)
  | _ => (.token .slash none, 0)

/-- After a `"`: a string up to the next quote, or an error taking the rest of the text. -/
def lexString (rest : List UInt16) : Item × Nat :=
  let n := (rest.takeWhile (· != 0x22)).length
  if n < rest.length then (.token .string (some (.string ⟨rest.take n⟩)), n + 1)
  else (.error .unterminatedString ⟨0x22 :: rest⟩, rest.length)

/-- The natural number spelled by a list of digits, skipping the decimal point. -/
def digitsValue (ds : List UInt16) : Nat :=
  ds.foldl (fun acc d => if d == 0x2E then acc else acc * 10 + (d.toNat - 0x30)) 0

/-- The value of a number lexeme `[0-9]+(.[0-9]+)?`: the nearest binary64 to its digits
scaled by ten to minus the number of digits after the point. -/
def numberValue (ds : List UInt16) : Binary64 :=
  let fractionDigits := (ds.dropWhile (· != 0x2E)).drop 1
  Binary64.ofScientific (digitsValue ds) (-(fractionDigits.length : Int))

/-- After a digit: the rest of a number, its fraction only when a digit follows the point. -/
def lexNumber (u : UInt16) (rest : List UInt16) : Item × Nat :=
  let whole := (rest.takeWhile isDigit).length
  let fraction :=
    match rest.drop whole with
    | 0x2E :: d :: more => if isDigit d then ((d :: more).takeWhile isDigit).length + 1 else 0
    | _ => 0
  let n := whole + fraction
  let text := u :: rest.take n
  let value := numberValue text
  if value.isFinite then (.token .number (some (.number value)), n)
  else (.error .invalidNumber ⟨text⟩, n)

/-- After a letter or `_`: the rest of a name, a keyword when it spells one. -/
def lexName (u : UInt16) (rest : List UInt16) : Item × Nat :=
  let n := (rest.takeWhile isNamePart).length
  match TokenKind.keywordFromText ⟨u :: rest.take n⟩ with
  | some k => (.token k k.keywordLiteral, n)
  | none => (.token .identifier none, n)

/-- A unit that starts nothing: an error, taking the low surrogate after a high one. -/
def lexUnexpected (u : UInt16) (rest : List UInt16) : Item × Nat :=
  match rest with
  | v :: _ =>
    if Text.isHighSurrogate u && Text.isLowSurrogate v then
      (.error .unexpectedCharacter ⟨[u, v]⟩, 1)
    else (.error .unexpectedCharacter ⟨[u]⟩, 0)
  | [] => (.error .unexpectedCharacter ⟨[u]⟩, 0)

/-- The item that starts with `u`, followed by `rest`, and how many units of `rest` it
takes. -/
def lexAt (u : UInt16) (rest : List UInt16) : Item × Nat :=
  if isSpace u then (.blank, 0)
  else
    match singleKind? u with
    | some k => (.token k none, 0)
    | none =>
      match pairKinds? u with
      | some (alone, withEqual) =>
        match rest with
        | 0x3D :: _ => (.token withEqual none, 1)
        | _ => (.token alone none, 0)
      | none =>
        if u == 0x2F then lexSlash rest
        else if u == 0x22 then lexString rest
        else if isDigit u then lexNumber u rest
        else if isNameStart u then lexName u rest
        else lexUnexpected u rest

end Scan

end ExprFront
