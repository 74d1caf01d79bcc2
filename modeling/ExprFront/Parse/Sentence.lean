import ExprFront.Parse.Parser
/-!
# The grammar as a relation

The sentences of the expression grammar, each with the tree its derivation builds and the
number of condition levels it nests. This is the grammar of `Parse/Expr` written as
productions rather than as a reading procedure:

* a comma expression is a condition, or a comma expression, `,` and a condition;
* a condition is a binary expression of the loosest level, optionally followed by `?`, a
  comma expression, `:` and a condition;
* a binary expression of a level is an operand of that level, or a binary expression of the
  level, one of its operators and an operand; an operand is a binary expression of the next
  tighter level, or below the tightest a prefix expression;
* a prefix expression is `-` or `!` followed by a prefix expression, or a primary;
* a primary is a literal token, or `(`, a comma expression and `)`.

Repetitions are left-recursive, so the tree of a comma or binary expression is the left fold
of its operands, and `c ? t : e` nests to the right through its else-branch. Spans are those
of the parser's trees: a literal spans its token and a grouping its parentheses.

The last index counts the `ternary` nodes on the longest path from the root of the
derivation to a leaf: every condition is one such node, with or without `?`. The parser
accepts a list exactly when it is a sentence whose count is within the nesting limit.

## Main definitions

* `Sentence.Comma`, `Sentence.Ternary`, `Sentence.Binary`, `Sentence.Operand`,
  `Sentence.Unary`, `Sentence.Primary`.
* `Sentence.IsSentence`: a kind sequence some sentence has; `Sentence.IsViable`: one that
  begins a sentence followed by the end of input.
* `Sentence.readable`, `Sentence.terminated`: the tokens a parser reads, without and with the
  end-of-input token that stops it.
-/

namespace ExprFront

namespace Sentence

open Grammar

variable {π : Type}

mutual

/-- `Comma ts e n`: `ts` is a comma expression with tree `e` nesting `n` conditions. -/
inductive Comma : List (Token π) → Expr π → Nat → Prop where
  /-- A single condition. -/
  | single {ts : List (Token π)} {e : Expr π} {n : Nat} : Ternary ts e n → Comma ts e n
  /-- One more condition after a comma. -/
  | more {ts us : List (Token π)} {e f : Expr π} {t : Token π} {n m : Nat} :
      Comma ts e n → t.kind = .comma → Ternary us f m →
      Comma (ts ++ t :: us) (.binary e t f) (max n m)

/-- `Ternary ts e n`: `ts` is a condition with tree `e`; `n` counts this node too. -/
inductive Ternary : List (Token π) → Expr π → Nat → Prop where
  /-- A binary expression with no `?`. -/
  | plain {ts : List (Token π)} {e : Expr π} {n : Nat} :
      Binary .equality ts e n → Ternary ts e (n + 1)
  /-- `cond ? then : else`. -/
  | cond {ts us vs : List (Token π)} {c t f : Expr π} {q k : Token π} {n m p : Nat} :
      Binary .equality ts c n → q.kind = .question → Comma us t m → k.kind = .colon →
      Ternary vs f p →
      Ternary (ts ++ q :: (us ++ k :: vs)) (.condition c t f) (max n (max m p) + 1)

/-- `Binary level ts e n`: `ts` is a binary expression of `level` with tree `e`. -/
inductive Binary : BinaryLevel → List (Token π) → Expr π → Nat → Prop where
  /-- A single operand. -/
  | single {level : BinaryLevel} {ts : List (Token π)} {e : Expr π} {n : Nat} :
      Operand level ts e n → Binary level ts e n
  /-- One more operand after an operator of the level. -/
  | more {level : BinaryLevel} {ts us : List (Token π)} {e f : Expr π} {t : Token π}
      {n m : Nat} :
      Binary level ts e n → t.kind ∈ level.operators → Operand level us f m →
      Binary level (ts ++ t :: us) (.binary e t f) (max n m)

/-- `Operand level ts e n`: `ts` is an operand of `level`: an expression of the next tighter
level, or a prefix expression below the tightest. -/
inductive Operand : BinaryLevel → List (Token π) → Expr π → Nat → Prop where
  /-- An operand of an equality. -/
  | equality {ts : List (Token π)} {e : Expr π} {n : Nat} :
      Binary .comparison ts e n → Operand .equality ts e n
  /-- An operand of a comparison. -/
  | comparison {ts : List (Token π)} {e : Expr π} {n : Nat} :
      Binary .term ts e n → Operand .comparison ts e n
  /-- An operand of a term. -/
  | term {ts : List (Token π)} {e : Expr π} {n : Nat} :
      Binary .factor ts e n → Operand .term ts e n
  /-- An operand of a factor. -/
  | factor {ts : List (Token π)} {e : Expr π} {n : Nat} : Unary ts e n → Operand .factor ts e n

/-- `Unary ts e n`: `ts` is a prefix expression with tree `e`. -/
inductive Unary : List (Token π) → Expr π → Nat → Prop where
  /-- A prefix operator before a prefix expression. -/
  | op {ts : List (Token π)} {e : Expr π} {t : Token π} {n : Nat} :
      isPrefixKind t.kind = true → Unary ts e n → Unary (t :: ts) (.unary t e) n
  /-- A primary. -/
  | primary {ts : List (Token π)} {e : Expr π} {n : Nat} : Primary ts e n → Unary ts e n

/-- `Primary ts e n`: `ts` is a literal or a grouping with tree `e`. -/
inductive Primary : List (Token π) → Expr π → Nat → Prop where
  /-- A literal token; a token without a literal stands for nil. -/
  | literal {t : Token π} :
      isLiteralKind t.kind = true →
      Primary [t] (.literal (t.literal.getD .nil) ⟨t.start, t.stop⟩) 0
  /-- `( e )`. -/
  | group {ts : List (Token π)} {e : Expr π} {o c : Token π} {n : Nat} :
      o.kind = .leftParen → Comma ts e n → c.kind = .rightParen →
      Primary (o :: (ts ++ [c])) (.grouping e ⟨o.start, c.stop⟩) n

end

/-- A sequence of kinds is a sentence when some tokens of those kinds derive an expression. -/
def IsSentence (π : Type) (ks : List TokenKind) : Prop :=
  ∃ (ts : List (Token π)) (e : Expr π) (n : Nat), Comma ts e n ∧ ts.map (·.kind) = ks

/-- A sequence of kinds that can still be read: it begins some sentence followed by the end of
input. -/
def IsViable (π : Type) (ks : List TokenKind) : Prop :=
  ∃ s, IsSentence π s ∧ ks <+: s ++ [.eof]

/-- The tokens a parser reads: comments dropped, cut just before the first end-of-input token. -/
def readable (tokens : List (Token π)) : List (Token π) :=
  (dropComments tokens).takeWhile (fun t => t.kind != .eof)

/-- The end-of-input token that stops the readable tokens: the first one without comments, or
the one made up past their end. -/
def readableEnd [Coord π] (tokens : List (Token π)) : Token π :=
  match (dropComments tokens).dropWhile (fun t => t.kind != .eof) with
  | t :: _ => t
  | [] => endTokenAfter (dropComments tokens)

/-- The readable tokens followed by the end-of-input token that stops them. -/
def terminated [Coord π] (tokens : List (Token π)) : List (Token π) :=
  readable tokens ++ [readableEnd tokens]

end Sentence

end ExprFront
