import ExprFront.Parse.Error
import ExprFront.Tree.Expr
/-!
# What the grammar functions share

The parser reads a list of tokens with the comments already removed. Each grammar function
takes the tokens that remain and returns its result together with the tokens it left, which
are a suffix of those it was given: that is what makes the mutual recursion of the grammar
terminate, and it is also where a failed function stopped, since a failure keeps whatever
was read before it.

Past the end of the list the parser sees an end-of-input token. When the list ends with a
real one that is never reached; when it does not, a token is made up just past the last
token: on the line where that token's lexeme ends, in the column after it. That line and
column are sums of the last token's coordinates and counts of its lexeme, taken as its
coordinate type takes them. An end-of-input token inside the list is never passed: taking it
leaves it in place.

## Main definitions

* `endTokenAfter`: the token seen past the end of a list.
* `Grammar.Env`: that token and the nesting limit.
* `Grammar.Parsed`: a result and the suffix left.
* `Grammar.expect`: take a token of a required kind.
-/

namespace ExprFront

/-- The end-of-input token seen past the end of a list of tokens: at line 1, column 1,
offset 0 for an empty list; otherwise at the end offset of the last token, on the line where
its lexeme ends, one column past its last unit. -/
def endTokenAfter {π : Type} [Coord π] (tokens : List (Token π)) : Token π :=
  match tokens.getLast? with
  | none =>
    { kind := .eof, lexeme := Text.empty, literal := none, line := Coord.ofCount 1,
      column := Coord.ofCount 1, start := Coord.ofCount 0, stop := Coord.ofCount 0 }
  | some last =>
    { kind := .eof, lexeme := Text.empty, literal := none,
      line := Coord.addCount last.line (last.lexeme.count 0x0A),
      column :=
        match last.lexeme.lastIndexOf? 0x0A with
        | none => Coord.addCount last.column last.lexeme.length
        | some i => Coord.ofCount (last.lexeme.length - i),
      start := last.stop, stop := last.stop }

namespace Grammar

variable {π : Type}

/-- What every grammar function sees besides the tokens: the token past the end, and the
nesting limit (none for no limit). -/
structure Env (π : Type) where
  /-- The token seen once the list runs out. -/
  atEnd : Token π
  /-- How many condition levels may be open at once. -/
  limit : Option Nat

/-- The environment for a list of comment-free tokens with a given limit. -/
def Env.ofTokens [Coord π] (tokens : List (Token π)) (limit : Option Nat) : Env π :=
  ⟨endTokenAfter tokens, limit⟩

/-- The next token. -/
def Env.peek (env : Env π) : List (Token π) → Token π
  | [] => env.atEnd
  | t :: _ => t

/-- A result of a grammar function run on `ts`, and the suffix of `ts` it left. -/
structure Parsed (ts : List (Token π)) (α : Type) where
  /-- The value read, or why reading stopped. -/
  result : Except (ParseError π) α
  /-- The tokens left. -/
  rest : List (Token π)
  /-- They are a suffix of the input. -/
  suffix : rest <:+ ts

namespace Parsed

/-- A result on a suffix is a result on the whole list. -/
def widen {ts r : List (Token π)} {α : Type} (p : Parsed r α) (h : r <:+ ts) : Parsed ts α :=
  ⟨p.result, p.rest, p.suffix.trans h⟩

/-- A failure at the head of the list, reading nothing. -/
def failHere {ts : List (Token π)} {α : Type} (e : ParseError π) : Parsed ts α :=
  ⟨.error e, ts, List.suffix_refl ts⟩

end Parsed

/-- Take the next token if it has kind `k`; otherwise fail where we stand. An end-of-input
token is not passed. -/
def expect (env : Env π) (k : TokenKind) (ts : List (Token π)) : Parsed ts (Token π) :=
  match ts with
  | [] =>
    if env.atEnd.kind = k then ⟨.ok env.atEnd, [], List.suffix_refl []⟩
    else .failHere (.unexpectedToken k env.atEnd)
  | t :: rest =>
    if t.kind = k then
      if k = .eof then ⟨.ok t, t :: rest, List.suffix_refl _⟩
      else ⟨.ok t, rest, List.suffix_cons t rest⟩
    else .failHere (.unexpectedToken k t)

end Grammar

end ExprFront
