import ExprFront.Parse.Basic
/-!
# The expression grammar

One function per precedence level, loosest first:

```
comma     := ternary ("," ternary)*
ternary   := equality ("?" comma ":" ternary)?
equality  := comparison (("==" | "!=") comparison)*
comparison:= term ((">" | ">=" | "<" | "<=") term)*
term      := factor (("+" | "-") factor)*
factor    := unary (("*" | "/") unary)*
unary     := ("-" | "!")* primary
primary   := NUMBER | STRING | "true" | "false" | "nil" | "(" comma ")"
```

Binary levels and the comma fold to the left. The then-branch of a condition is a whole
expression and its else-branch another condition, so conditions nest to the right. A run of
prefix operators is read first and applied from the innermost out.

Every recursive path passes through `ternary`, so that is where nesting is counted: entering
it at depth `d` with a limit `n ≤ d` fails at the next token, and otherwise its parts are read
at depth `d + 1`.

The functions are mutually recursive. Each call either reads from a strictly shorter suffix
or moves to a function of lower rank on the same one, so `32 * length + rank` decreases.

## Main definitions

* `Grammar.BinaryLevel`: the four binary levels.
* `Grammar.comma`, `Grammar.ternary`, `Grammar.binary`, `Grammar.unary`, `Grammar.primary`.
* `Grammar.parseAll`: an expression followed by the end of input.
-/

namespace ExprFront

namespace Grammar

variable {π : Type}

/-- The left-associative binary levels, loosest first. -/
inductive BinaryLevel where
  /-- `==` and `!=`. -/
  | equality
  /-- `>`, `>=`, `<` and `<=`. -/
  | comparison
  /-- `+` and `-`. -/
  | term
  /-- `*` and `/`. -/
  | factor
  deriving DecidableEq, Repr

namespace BinaryLevel

/-- The operator kinds of a level. -/
def operators : BinaryLevel → List TokenKind
  | equality => [.equalEqual, .bangEqual]
  | comparison => [.greater, .greaterEqual, .less, .lessEqual]
  | term => [.plus, .minus]
  | factor => [.star, .slash]

/-- How far a level is from the tightest, which ranks it in the termination measure. -/
def rank : BinaryLevel → Nat
  | equality => 3
  | comparison => 2
  | term => 1
  | factor => 0

end BinaryLevel

/-- The kinds that make a literal. -/
def isLiteralKind : TokenKind → Bool
  | .number | .string | .trueKw | .falseKw | .nilKw => true
  | _ => false

/-- The kinds of prefix operators. -/
def isPrefixKind (k : TokenKind) : Bool := k == .minus || k == .bang

/-- The run of prefix operators at the head of a list, and the suffix after it. -/
def prefixRun : (ts : List (Token π)) → List (Token π) × { r : List (Token π) // r <:+ ts }
  | [] => ([], ⟨[], List.suffix_refl []⟩)
  | t :: rest =>
    if isPrefixKind t.kind then
      match prefixRun rest with
      | (ops, ⟨r, h⟩) => (t :: ops, ⟨r, h.trans (List.suffix_cons t rest)⟩)
    else ([], ⟨t :: rest, List.suffix_refl _⟩)

/-- The limit that opening a level at `depth` would pass, if any. -/
def Env.blocks (env : Env π) (depth : Nat) : Option Nat :=
  match env.limit with
  | some n => if n ≤ depth then some n else none
  | none => none

theorem length_lt_of_cons_suffix {t : Token π} {r ts : List (Token π)} (h : t :: r <:+ ts) :
    r.length < ts.length := by
  have := h.length_le
  simp only [List.length_cons] at this
  omega

mutual

/-- `ternary ("," ternary)*`, folded to the left. -/
def comma (env : Env π) (depth : Nat) (ts : List (Token π)) : Parsed ts (Expr π) :=
  match ternary env depth ts with
  | ⟨.error e, r, h⟩ => ⟨.error e, r, h⟩
  | ⟨.ok lhs, r, h⟩ =>
    have := h.length_le
    (commaTail env depth lhs r).widen h
termination_by ts.length * 32 + 19
decreasing_by all_goals omega

/-- The `("," ternary)*` loop of `comma`, with the expression read so far. -/
def commaTail (env : Env π) (depth : Nat) (lhs : Expr π) (ts : List (Token π)) :
    Parsed ts (Expr π) :=
  match ts with
  | [] => ⟨.ok lhs, [], List.suffix_refl []⟩
  | t :: rest =>
    if t.kind = .comma then
      match ternary env depth rest with
      | ⟨.error e, r, h⟩ => ⟨.error e, r, h.trans (List.suffix_cons t rest)⟩
      | ⟨.ok rhs, r, h⟩ =>
        have := h.length_le
        (commaTail env depth (.binary lhs t rhs) r).widen (h.trans (List.suffix_cons t rest))
    else ⟨.ok lhs, t :: rest, List.suffix_refl _⟩
termination_by ts.length * 32 + 18
decreasing_by
  all_goals
    try simp only [List.length_cons]
    omega

/-- `equality ("?" comma ":" ternary)?`, one nesting level deeper. -/
def ternary (env : Env π) (depth : Nat) (ts : List (Token π)) : Parsed ts (Expr π) :=
  match env.blocks depth with
  | some n => .failHere (.nestingTooDeep (env.peek ts) n)
  | none =>
    match binary env (depth + 1) .equality ts with
    | ⟨.error e, r, h⟩ => ⟨.error e, r, h⟩
    | ⟨.ok c, [], h⟩ => ⟨.ok c, [], h⟩
    | ⟨.ok c, q :: r1, h⟩ =>
      if q.kind = .question then
        have h1 : r1 <:+ ts := (List.suffix_cons q r1).trans h
        have := length_lt_of_cons_suffix h
        match comma env (depth + 1) r1 with
        | ⟨.error e, r2, h2⟩ => ⟨.error e, r2, h2.trans h1⟩
        | ⟨.ok th, r2, h2⟩ =>
          match expect env .colon r2 with
          | ⟨.error e, r3, h3⟩ => ⟨.error e, r3, (h3.trans h2).trans h1⟩
          | ⟨.ok _, r3, h3⟩ =>
            have := (h3.trans h2).length_le
            match ternary env (depth + 1) r3 with
            | ⟨.error e, r4, h4⟩ => ⟨.error e, r4, ((h4.trans h3).trans h2).trans h1⟩
            | ⟨.ok el, r4, h4⟩ =>
              ⟨.ok (.condition c th el), r4, ((h4.trans h3).trans h2).trans h1⟩
      else ⟨.ok c, q :: r1, h⟩
termination_by ts.length * 32 + 17
decreasing_by
  all_goals
    try simp only [BinaryLevel.rank]
    omega

/-- A binary level: operands of the next tighter level joined by the level's operators,
folded to the left. -/
def binary (env : Env π) (depth : Nat) (level : BinaryLevel) (ts : List (Token π)) :
    Parsed ts (Expr π) :=
  match operand env depth level ts with
  | ⟨.error e, r, h⟩ => ⟨.error e, r, h⟩
  | ⟨.ok lhs, r, h⟩ =>
    have := h.length_le
    (binaryTail env depth level lhs r).widen h
termination_by ts.length * 32 + 3 * level.rank + 6
decreasing_by all_goals omega

/-- The operator loop of a binary level, with the expression read so far. -/
def binaryTail (env : Env π) (depth : Nat) (level : BinaryLevel) (lhs : Expr π)
    (ts : List (Token π)) : Parsed ts (Expr π) :=
  match ts with
  | [] => ⟨.ok lhs, [], List.suffix_refl []⟩
  | t :: rest =>
    if level.operators.contains t.kind then
      match operand env depth level rest with
      | ⟨.error e, r, h⟩ => ⟨.error e, r, h.trans (List.suffix_cons t rest)⟩
      | ⟨.ok rhs, r, h⟩ =>
        have := h.length_le
        (binaryTail env depth level (.binary lhs t rhs) r).widen
          (h.trans (List.suffix_cons t rest))
    else ⟨.ok lhs, t :: rest, List.suffix_refl _⟩
termination_by ts.length * 32 + 3 * level.rank + 5
decreasing_by
  all_goals
    try simp only [List.length_cons]
    omega

/-- An operand of a binary level: the next tighter level, or a prefix expression below
the tightest. -/
def operand (env : Env π) (depth : Nat) (level : BinaryLevel) (ts : List (Token π)) :
    Parsed ts (Expr π) :=
  match level with
  | .equality => binary env depth .comparison ts
  | .comparison => binary env depth .term ts
  | .term => binary env depth .factor ts
  | .factor => unary env depth ts
termination_by ts.length * 32 + 3 * level.rank + 4
decreasing_by
  all_goals
    try simp only [BinaryLevel.rank]
    omega

/-- Prefix operators, read as a run, applied to a primary from the innermost out. -/
def unary (env : Env π) (depth : Nat) (ts : List (Token π)) : Parsed ts (Expr π) :=
  match prefixRun ts with
  | (ops, ⟨r, h⟩) =>
    have := h.length_le
    match primary env depth r with
    | ⟨.error e, r', h'⟩ => ⟨.error e, r', h'.trans h⟩
    | ⟨.ok e, r', h'⟩ => ⟨.ok (ops.foldr .unary e), r', h'.trans h⟩
termination_by ts.length * 32 + 3
decreasing_by all_goals omega

/-- A literal, or an expression in parentheses. -/
def primary (env : Env π) (depth : Nat) (ts : List (Token π)) : Parsed ts (Expr π) :=
  match ts with
  | [] => .failHere (.expectedExpression env.atEnd)
  | t :: rest =>
    if isLiteralKind t.kind then
      ⟨.ok (.literal (t.literal.getD .nil) ⟨t.start, t.stop⟩), rest,
        List.suffix_cons t rest⟩
    else if t.kind = .leftParen then
      match comma env depth rest with
      | ⟨.error e, r, h⟩ => ⟨.error e, r, h.trans (List.suffix_cons t rest)⟩
      | ⟨.ok inner, r, h⟩ =>
        match expect env .rightParen r with
        | ⟨.error e, r', h'⟩ => ⟨.error e, r', (h'.trans h).trans (List.suffix_cons t rest)⟩
        | ⟨.ok close, r', h'⟩ =>
          ⟨.ok (.grouping inner ⟨t.start, close.stop⟩), r',
            (h'.trans h).trans (List.suffix_cons t rest)⟩
    else .failHere (.expectedExpression t)
termination_by ts.length * 32 + 2
decreasing_by
  all_goals
    try simp only [List.length_cons]
    omega

end

/-- An expression, then the end of input. -/
def parseAll (env : Env π) (depth : Nat) (ts : List (Token π)) : Parsed ts (Expr π) :=
  match comma env depth ts with
  | ⟨.error e, r, h⟩ => ⟨.error e, r, h⟩
  | ⟨.ok e, r, h⟩ =>
    match expect env .eof r with
    | ⟨.error err, r', h'⟩ => ⟨.error err, r', h'.trans h⟩
    | ⟨.ok _, r', h'⟩ => ⟨.ok e, r', h'.trans h⟩

end Grammar

end ExprFront
