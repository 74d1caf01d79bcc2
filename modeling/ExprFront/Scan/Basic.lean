import ExprFront.Scan.Lexeme
/-!
# Scanning a text

The scanner walks the text one item at a time (`Scan.lexAt`), keeping the position of the
next unit: its offset, its line, and its column. Every unit moves the offset and the column
on by one; a line feed instead starts the next line at column one. Only the line feed does
that: a carriage return is an ordinary unit.

A token records the position where its lexeme starts and the offset where it stops; an error
records where its lexeme starts. After the last unit comes an end-of-input token with an
empty lexeme at the final position. The walk ends because every step takes at least one
unit.

## Main definitions

* `Scan.Position`, `Scan.Position.step`.
* `Scan.Result`: the tokens, the end token last, and the errors, both in text order.
* `Scan.scan`.
-/

namespace ExprFront

namespace Scan

/-- Where the scanner stands: offset, line and column of the next unit. -/
structure Position where
  /-- Units read so far. -/
  offset : Nat
  /-- The line, from one. -/
  line : Nat
  /-- The column, from one. -/
  column : Nat
  deriving DecidableEq, Repr, Inhabited

namespace Position

/-- The start of a text. -/
def initial : Position := ⟨0, 1, 1⟩

/-- The position after one more unit. -/
def step (p : Position) (u : UInt16) : Position :=
  if u == 0x0A then ⟨p.offset + 1, p.line + 1, 1⟩ else ⟨p.offset + 1, p.line, p.column + 1⟩

/-- The position after a list of units. -/
def after (p : Position) (us : List UInt16) : Position := us.foldl step p

@[simp] theorem after_nil (p : Position) : p.after [] = p := rfl

@[simp] theorem after_cons (p : Position) (u : UInt16) (us : List UInt16) :
    p.after (u :: us) = (p.step u).after us := rfl

theorem after_append (p : Position) (us vs : List UInt16) :
    p.after (us ++ vs) = (p.after us).after vs := by
  simp only [after, List.foldl_append]

/-- Every unit moves the offset by one. -/
@[simp] theorem offset_after (p : Position) (us : List UInt16) :
    (p.after us).offset = p.offset + us.length := by
  induction us generalizing p with
  | nil => rfl
  | cons u us ih =>
    rw [after_cons, ih]
    unfold step
    split <;> simp only [List.length_cons] <;> omega

end Position

/-- What scanning a text gives. -/
structure Result where
  /-- The tokens in text order, comments included, the end token last. -/
  tokens : List (Token Nat)
  /-- The lexical errors in text order. -/
  errors : List ScanError
  deriving Repr, Inhabited

/-- The end-of-input token at a position. -/
def endToken (p : Position) : Token Nat :=
  { kind := .eof, lexeme := Text.empty, literal := none, line := p.line, column := p.column,
    start := p.offset, stop := p.offset }

/-- Scan the units that remain from position `p`. -/
def scanFrom (p : Position) : List UInt16 → Result
  | [] => ⟨[endToken p], []⟩
  | u :: rest =>
    let (item, n) := lexAt u rest
    let lexeme := u :: rest.take n
    let next := p.after lexeme
    let later := scanFrom next (rest.drop n)
    match item with
    | .blank => later
    | .token kind literal =>
      let t : Token Nat :=
        { kind, lexeme := ⟨lexeme⟩, literal, line := p.line, column := p.column,
          start := p.offset, stop := next.offset }
      ⟨t :: later.tokens, later.errors⟩
    | .error kind text => ⟨later.tokens, ⟨kind, text, p.line, p.column⟩ :: later.errors⟩
termination_by us => us.length
decreasing_by simp only [List.length_drop, List.length_cons]; omega

/-- Scan a whole text. -/
def scan (t : Text) : Result := scanFrom Position.initial t.units

end Scan

end ExprFront
