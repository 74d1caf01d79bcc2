import Mathlib.Control.Monad.Basic
import ExprFront.Proofs.Scan.Pieces
import ExprFront.Proofs.Parse.Language
import ExprFront.Proofs.Parse.Derivation
import ExprFront.Source
/-!
# Printing a tree and reading it back

The debug rendering adds no parentheses: a grouping writes its own, every other node writes its
parts in order, binary operators, `?` and `:` between single spaces and a prefix operator glued
to its operand. Read back, the rendering gives the same tree up to positions (`Expr.strip`), as
long as every literal is written in a form the scanner reads back as the same literal
(`Literal.ReadsBack`): booleans and nil always are, a number when its text is a numeral of its
own value, and a string never, since it is written without its quotes.

Two things make it work. No lexeme reaches across a seam: a space follows every operand, every
`?` and every `:`, and an operand never starts with `=`, `/` or `*`, so a prefix operator stays
the token it was. And a tree the parser builds respects the precedence and the associativity of
every level: that is what the derivation of its source records, and the rendering follows that
derivation piece by piece, so its tokens derive a tree of the same form in the same way
(`Comma.reprints`).

Main statement (`render_reparses`).

## Main definitions

* `Expr.strip`: a tree without its positions.
* `Expr.literals`: the literal values of a tree.
* `Literal.ReadsBack`: the rendering of a literal is read back as that literal.
-/

namespace ExprFront

/-- A token without its position: its kind, lexeme and literal. -/
def Token.strip {π : Type} (t : Token π) : Token Unit :=
  { kind := t.kind, lexeme := t.lexeme, literal := t.literal, line := (), column := (),
    start := (), stop := () }

namespace Expr

variable {π : Type}

/-- A tree without positions: the spans of literals and groupings and the positions of operator
tokens are forgotten, while node types, operator kinds and lexemes, and literal values stay. -/
def strip : Expr π → Expr Unit
  | literal v _ => literal v ⟨(), ()⟩
  | grouping e _ => grouping e.strip ⟨(), ()⟩
  | unary op e => unary op.strip e.strip
  | binary l op r => binary l.strip op.strip r.strip
  | condition c t e => condition c.strip t.strip e.strip

/-- The literal values of a tree, left to right. -/
def literals : Expr π → List Literal
  | literal v _ => [v]
  | grouping e _ => e.literals
  | unary _ e => e.literals
  | binary l _ r => l.literals ++ r.literals
  | condition c t e => c.literals ++ t.literals ++ e.literals

theorem render_units_grouping (e : Expr π) (s : Span π) :
    (grouping e s).render.units = 0x28 :: 0x20 :: (e.render.units ++ [0x20, 0x29]) := by
  simp only [render, Text.units_append]
  rfl

theorem render_units_unary (op : Token π) (e : Expr π) :
    (unary op e).render.units = op.lexeme.units ++ e.render.units := rfl

theorem render_units_binary (l : Expr π) (op : Token π) (r : Expr π) :
    (binary l op r).render.units =
      l.render.units ++ 0x20 :: (op.lexeme.units ++ 0x20 :: r.render.units) := by
  simp only [render, Text.units_append, List.append_assoc]
  rfl

theorem render_units_condition (c t e : Expr π) :
    (condition c t e).render.units =
      c.render.units ++ 0x20 :: ([0x3F] ++ 0x20 :: (t.render.units ++
        0x20 :: ([0x3A] ++ 0x20 :: e.render.units))) := by
  simp only [render, Text.units_append, List.append_assoc]
  rfl

end Expr

open Scan Grammar

/-- The text of a number reads back as the number: it is a numeral whose value is the number. -/
def Binary64.ReadsBack (x : Binary64) : Prop :=
  IsNumeral x.toText.units ∧ numberValue x.toText.units = x

/-- The rendering of a literal is read back as the same literal: always for a boolean and nil,
for a number when its text is, and never for a string, which is written without its quotes. -/
def Literal.ReadsBack : Literal → Prop
  | .number x => x.ReadsBack
  | .string _ => False
  | .bool _ => True
  | .nil => True

/-- Zero is written `0`. -/
theorem Binary64.readsBack_zero : Binary64.zero.ReadsBack :=
  ⟨⟨[0x30], [], rfl, by simp, by simp [isDigit], .inl rfl⟩, rfl⟩

/-- Only a finite value is written as a numeral: the others are `NaN` and `Infinity`, signed. -/
theorem Binary64.isFinite_of_isNumeral {x : Binary64} (h : IsNumeral x.toText.units) :
    x.isFinite = true := by
  obtain ⟨whole, fraction, hw, hne, hdigits, -⟩ := h
  obtain ⟨d, ds, rfl⟩ := List.exists_cons_of_ne_nil hne
  have hd : isDigit d = true := hdigits d List.mem_cons_self
  cases hfin : x.isFinite
  · -- the text starts with `N`, `I` or `-`, none of them a digit
    have hhead : ∃ rest, x.toText.units = 0x4E :: rest ∨ x.toText.units = 0x49 :: rest ∨
        x.toText.units = 0x2D :: rest := by
      unfold toText
      simp only [hfin, Bool.not_false, if_true]
      split
      · exact ⟨_, .inl rfl⟩
      · split
        · exact ⟨_, .inr (.inr rfl)⟩
        · exact ⟨_, .inr (.inl rfl)⟩
    obtain ⟨rest, h | h | h⟩ := hhead <;>
      · rw [hw, List.cons_append, List.cons.injEq] at h
        rw [h.1] at hd
        cases hd
  · rfl

namespace Literal

/-- A literal that reads back is one token carrying it, of a literal kind, when a space or
nothing follows. -/
theorem ReadsBack.lexesAs {v : Literal} (h : v.ReadsBack) :
    ∃ k, isLiteralKind k = true ∧ LexesAs (· = 0x20) k (some v) v.render.units := by
  cases v with
  | number x =>
    obtain ⟨hnum, hval⟩ := h
    have hfin : (numberValue x.toText.units).isFinite = true := by
      rw [hval]
      exact Binary64.isFinite_of_isNumeral hnum
    have hlex := hnum.lexesAs hfin
    rw [hval] at hlex
    exact ⟨.number, rfl, hlex.mono numFollows_space⟩
  | string s => exact h.elim
  | bool b =>
    cases b
    · have hlex := lexesAs_keyword (u := 0x66) (w := [0x61, 0x6C, 0x73, 0x65]) (k := .falseKw) rfl
        (by simp [isNamePart, isNameStart, isAlpha]) rfl
      exact ⟨.falseKw, rfl, hlex.mono nameFollows_space⟩
    · have hlex := lexesAs_keyword (u := 0x74) (w := [0x72, 0x75, 0x65]) (k := .trueKw) rfl
        (by simp [isNamePart, isNameStart, isAlpha]) rfl
      exact ⟨.trueKw, rfl, hlex.mono nameFollows_space⟩
  | nil =>
    have hlex := lexesAs_keyword (u := 0x6E) (w := [0x69, 0x6C]) (k := .nilKw) rfl
      (by simp [isNamePart, isNameStart, isAlpha]) rfl
    exact ⟨.nilKw, rfl, hlex.mono nameFollows_space⟩

/-- A literal that reads back starts with a digit or a letter, which may follow an operator. -/
theorem ReadsBack.head {v : Literal} (h : v.ReadsBack) : HeadIn opFollows v.render.units := by
  cases v with
  | number x =>
    obtain ⟨⟨whole, fraction, hw, hne, hdigits, -⟩, -⟩ := h
    obtain ⟨d, ds, rfl⟩ := List.exists_cons_of_ne_nil hne
    show HeadIn opFollows x.toText.units
    rw [hw, List.cons_append, headIn_cons]
    exact opFollows_of_isDigit (hdigits d List.mem_cons_self)
  | string s => exact h.elim
  | bool b =>
    cases b
    · show HeadIn opFollows [0x66, 0x61, 0x6C, 0x73, 0x65]
      rw [headIn_cons]
      decide
    · show HeadIn opFollows [0x74, 0x72, 0x75, 0x65]
      rw [headIn_cons]
      decide
  | nil =>
    show HeadIn opFollows [0x6E, 0x69, 0x6C]
    rw [headIn_cons]
    decide

end Literal

/-! ## Pieces of a rendering -/

namespace Scan.Scans

variable {p : Position} {a b w : List UInt16} {us vs : List (Token Nat)}

/-- An operand, a space, an operator, a space and an operand. -/
theorem between {k : TokenKind} {lit : Option Literal} (ha : Scans (· = 0x20) p a us)
    (hw : LexesAs opFollows k lit w)
    (hb : Scans (· = 0x20) (p.after (a ++ 0x20 :: (w ++ [0x20]))) b vs) :
    Scans (· = 0x20) p (a ++ 0x20 :: (w ++ 0x20 :: b))
      (us ++ tokenAt (p.after (a ++ [0x20])) k lit w :: vs) := by
  -- from the right: the operator followed by the second operand, then the first operand
  have hop : Scans (· = 0x20) (p.after (a ++ [0x20])) (w ++ 0x20 :: b)
      ([tokenAt (p.after (a ++ [0x20])) k lit w] ++ vs) :=
    (token hw _).append (space_then hb (by simp [Position.after_append])) rfl
      (headIn_cons.2 (opFollows_space _ rfl)) opFollows_space
  simpa using ha.append (space_then hop (Position.after_append _ _ _)) rfl (by simp) fun _ h => h

/-- `(`, a space, an expression, a space and `)`. -/
theorem group (ha : Scans (· = 0x20) (p.after [0x28, 0x20]) a us) :
    Scans (· = 0x20) p (0x28 :: 0x20 :: (a ++ [0x20, 0x29]))
      (tokenAt p .leftParen none [0x28] ::
        (us ++ [tokenAt (p.after (0x28 :: 0x20 :: (a ++ [0x20]))) .rightParen none [0x29]])) := by
  have hclose : Scans (· = 0x20) (p.after [0x28, 0x20]) (a ++ [0x20, 0x29])
      (us ++ [tokenAt (p.after (0x28 :: 0x20 :: (a ++ [0x20]))) .rightParen none [0x29]]) :=
    ha.append
      (space_then (token ⟨0x29, [], rfl, fun _ _ => rfl⟩ _) (by simp [Position.after_append]))
      rfl (by simp) fun _ h => h
  have hopen := (token (F := fun _ => True) ⟨0x28, [], rfl, fun _ _ => rfl⟩ p).append
    (space_then hclose rfl) rfl (by simp [HeadIn]) fun _ _ => trivial
  simpa using hopen

end Scan.Scans

/-! ## Rendering follows the derivation -/

namespace Sentence

open Grammar

variable {π : Type}

/-- From any position the scanner reads the rendering of `e` as tokens that derive, in the
category `R` and with nesting `n`, a tree of the stripped form of `e`. -/
def Reprints (R : List (Token Nat) → Expr Nat → Nat → Prop) (e : Expr π) (n : Nat) : Prop :=
  ∀ p, ∃ us e', Scans (· = 0x20) p e.render.units us ∧ R us e' n ∧ e'.strip = e.strip

namespace Reprints

variable {R S T : List (Token Nat) → Expr Nat → Nat → Prop} {e l r : Expr π} {n m k : Nat}

theorem map (h : Reprints R e n) (f : ∀ us e', R us e' n → S us e' m) : Reprints S e m :=
  fun p => (h p).imp fun us ⟨e', hs, hR, hst⟩ => ⟨e', hs, f us e' hR, hst⟩

/-- Two operands around an operator token that reads back from its lexeme. -/
theorem binary {t : Token π} (hl : Reprints R l n) (hr : Reprints S r m)
    (hnone : t.literal = none) (hlex : LexesAs opFollows t.kind none t.lexeme.units)
    (hbuild : ∀ us e vs f (t' : Token Nat), R us e n → t'.kind = t.kind → S vs f m →
      T (us ++ t' :: vs) (.binary e t' f) k) :
    Reprints T (.binary l t r) k := by
  intro p
  obtain ⟨us, e', hs, hR, hst⟩ := hl p
  obtain ⟨vs, f', hs', hS, hst'⟩ :=
    hr (p.after (l.render.units ++ 0x20 :: (t.lexeme.units ++ [0x20])))
  refine ⟨_, _, ?_,
    hbuild us e' vs f' (tokenAt (p.after (l.render.units ++ [0x20])) t.kind none t.lexeme.units)
      hR rfl hS, ?_⟩
  · rw [Expr.render_units_binary]
    exact hs.between hlex hs'
  · simp [Expr.strip, hst, hst', Token.strip, tokenAt, hnone]

end Reprints

theorem isPunctuation_of_mem_operators {level : BinaryLevel} {k : TokenKind}
    (hk : k ∈ level.operators) : isPunctuation k = true := by
  have hall : ∀ k ∈ level.operators, isPunctuation k = true := by
    cases level <;> decide
  exact hall k hk

theorem isPunctuation_of_isPrefixKind {k : TokenKind} (hk : isPrefixKind k = true) :
    isPunctuation k = true ∧ (k = .minus ∨ k = .bang) := by
  cases k <;> simp [isPrefixKind] at hk ⊢ <;> decide

/-- An operand's rendering starts with a digit, a letter, `(` or a prefix operator, so it may
follow an operator. -/
theorem Unary.render_head {ts : List (Token π)} {e : Expr π} {n : Nat} (h : Unary ts e n)
    (hops : ∀ t ∈ ts, Rereads t) (hlit : ∀ v ∈ e.literals, v.ReadsBack) :
    HeadIn opFollows e.render.units := by
  cases h with
  | @op _ _ t _ hk _ =>
    obtain ⟨hpunct, hkind⟩ := isPunctuation_of_isPrefixKind hk
    obtain ⟨-, u, rest, hw, hlex⟩ := hops t List.mem_cons_self hpunct
    rw [Expr.render_units_unary, hw, List.cons_append, headIn_cons]
    exact opFollows_of_lexAt (hlex [] (headIn_nil _)) hkind
  | primary hp =>
    cases hp with
    | literal _ => exact (hlit _ List.mem_cons_self).head
    | group _ _ _ =>
      rw [Expr.render_units_grouping, headIn_cons]
      decide

mutual

theorem Comma.reprints {ts : List (Token π)} {e : Expr π} {n : Nat} (h : Comma ts e n)
    (hops : ∀ t ∈ ts, Rereads t) (hlit : ∀ v ∈ e.literals, v.ReadsBack) : Reprints Comma e n :=
  match h with
  | .single ht => (ht.reprints hops hlit).map fun _ _ => .single
  | @Comma.more _ _ _ _ _ t _ _ hc hk ht => by
    obtain ⟨hnone, hlex⟩ := hops t (by simp) (by rw [hk]; decide)
    exact Reprints.binary
      (hc.reprints (fun t h => hops t (by simp [h])) fun v h => hlit v (by simp [Expr.literals, h]))
      (ht.reprints (fun t h => hops t (by simp [h])) fun v h => hlit v (by simp [Expr.literals, h]))
      hnone hlex fun _ _ _ _ _ hR hk' hS => .more hR (hk'.trans hk) hS

theorem Ternary.reprints {ts : List (Token π)} {e : Expr π} {n : Nat} (h : Ternary ts e n)
    (hops : ∀ t ∈ ts, Rereads t) (hlit : ∀ v ∈ e.literals, v.ReadsBack) :
    Reprints Ternary e n :=
  match h with
  | .plain hb => (hb.reprints hops hlit).map fun _ _ => .plain
  | @Ternary.cond _ _ _ _ c t f _ _ _ _ _ hb _ hc _ ht => by
    have ihc := hb.reprints (fun x h => hops x (by simp [h]))
      fun v h => hlit v (by simp [Expr.literals, h])
    have iht := hc.reprints (fun x h => hops x (by simp [h]))
      fun v h => hlit v (by simp [Expr.literals, h])
    have ihf := ht.reprints (fun x h => hops x (by simp [h]))
      fun v h => hlit v (by simp [Expr.literals, h])
    intro p
    -- the condition, then `?`, the then-branch, `:` and the else-branch, each after a space
    obtain ⟨us, c', hs, hB, hst⟩ := ihc p
    let p₁ := p.after (c.render.units ++ 0x20 :: ([0x3F] ++ [0x20]))
    obtain ⟨vs, t', hs', hC, hst'⟩ := iht p₁
    obtain ⟨ws, f', hs'', hT, hst''⟩ :=
      ihf (p₁.after (t.render.units ++ 0x20 :: ([0x3A] ++ [0x20])))
    rw [Expr.render_units_condition]
    exact ⟨_, .condition c' t' f',
      hs.between ⟨0x3F, [], rfl, fun _ _ => rfl⟩ (hs'.between ⟨0x3A, [], rfl, fun _ _ => rfl⟩ hs''),
      .cond hB rfl hC rfl hT, by simp [Expr.strip, hst, hst', hst'']⟩

theorem Binary.reprints {level : BinaryLevel} {ts : List (Token π)} {e : Expr π} {n : Nat}
    (h : Binary level ts e n) (hops : ∀ t ∈ ts, Rereads t)
    (hlit : ∀ v ∈ e.literals, v.ReadsBack) : Reprints (Binary level) e n :=
  match h with
  | .single ho => (ho.reprints hops hlit).map fun _ _ => .single
  | @Binary.more _ _ _ _ _ _ t _ _ hb hk ho => by
    obtain ⟨hnone, hlex⟩ := hops t (by simp) (isPunctuation_of_mem_operators hk)
    exact Reprints.binary
      (hb.reprints (fun t h => hops t (by simp [h])) fun v h => hlit v (by simp [Expr.literals, h]))
      (ho.reprints (fun t h => hops t (by simp [h])) fun v h => hlit v (by simp [Expr.literals, h]))
      hnone hlex fun _ _ _ _ _ hR hk' hS => .more hR (hk' ▸ hk) hS

theorem Operand.reprints {level : BinaryLevel} {ts : List (Token π)} {e : Expr π} {n : Nat}
    (h : Operand level ts e n) (hops : ∀ t ∈ ts, Rereads t)
    (hlit : ∀ v ∈ e.literals, v.ReadsBack) : Reprints (Operand level) e n :=
  match h with
  | .equality hb => (hb.reprints hops hlit).map fun _ _ => .equality
  | .comparison hb => (hb.reprints hops hlit).map fun _ _ => .comparison
  | .term hb => (hb.reprints hops hlit).map fun _ _ => .term
  | .factor hu => (hu.reprints hops hlit).map fun _ _ => .factor

theorem Unary.reprints {ts : List (Token π)} {e : Expr π} {n : Nat} (h : Unary ts e n)
    (hops : ∀ t ∈ ts, Rereads t) (hlit : ∀ v ∈ e.literals, v.ReadsBack) : Reprints Unary e n :=
  match h with
  | .primary hp => (hp.reprints hops hlit).map fun _ _ => .primary
  | @Unary.op _ _ e₁ t _ hk hu => by
    obtain ⟨hpunct, -⟩ := isPunctuation_of_isPrefixKind hk
    obtain ⟨hnone, hlex⟩ := hops t List.mem_cons_self hpunct
    have hops' : ∀ x ∈ _, Rereads x := fun x h => hops x (List.mem_cons_of_mem t h)
    have hhead := hu.render_head hops' hlit
    intro p
    -- the operator glued to its operand, which starts with a unit that keeps it apart
    obtain ⟨us, e', hs, hU, hst⟩ := hu.reprints hops' hlit (p.after t.lexeme.units)
    let t' := tokenAt p t.kind none t.lexeme.units
    refine ⟨t' :: us, .unary t' e', ?_, .op hk hU, ?_⟩
    · rw [Expr.render_units_unary, ← List.singleton_append]
      exact (Scans.token hlex p).append hs rfl hhead opFollows_space
    · simp [t', Expr.strip, hst, Token.strip, tokenAt, hnone]

theorem Primary.reprints {ts : List (Token π)} {e : Expr π} {n : Nat} (h : Primary ts e n)
    (hops : ∀ t ∈ ts, Rereads t) (hlit : ∀ v ∈ e.literals, v.ReadsBack) :
    Reprints Primary e n :=
  match h with
  | .literal _ => by
    obtain ⟨k, hk, hlex⟩ := (hlit _ List.mem_cons_self).lexesAs
    intro p
    exact ⟨_, _, Scans.token hlex p, .literal hk, rfl⟩
  | .group _ hc _ => by
    intro p
    obtain ⟨us, e', hs, hC, hst⟩ := hc.reprints (fun t h => hops t (by simp [h])) hlit
      (p.after [0x28, 0x20])
    rw [Expr.render_units_grouping]
    exact ⟨_, _, hs.group, .group rfl hC rfl, by simp [Expr.strip, hst]⟩

end

end Sentence

/-! ## Reading a rendering back -/

namespace Sentence

open Grammar

/-- A parse that reads a whole expression has read a sentence within the nesting limit. -/
theorem Comma.of_parseAll {π : Type} [Inhabited π] {env : Env π} (hend : env.atEnd.kind = .eof)
    {ts r : List (Token π)} {e : Expr π} (h : (parseAll env 0 ts).view = (.ok e, r)) :
    ∃ p n, ts = p ++ r ∧ Comma p e n ∧ env.Fits 0 n := by
  rw [parseAll_view] at h
  have hreads := (reads_all env hend).1 0 ts fun _ _ => Nat.zero_le _
  generalize (comma env 0 ts).view = o at hreads h
  obtain ⟨_ | e₀, r₀⟩ := o
  · simp at h
  · rw [andThen_ok, expect_view] at h
    split at h
    · simp only [if_pos, andThen_ok, Prod.mk.injEq, Except.ok.injEq] at h
      obtain ⟨rfl, rfl⟩ := h
      exact hreads
    · simp at h

/-- A sentence within the nesting limit, followed by an end-of-input token, parses into its
tree. -/
theorem Comma.parseTokens_append_eof {π : Type} [Coord π] {ts : List (Token π)} {e : Expr π}
    {n : Nat} (h : Comma ts e n) (hn : n ≤ maxNesting) {t : Token π} (ht : t.kind = .eof) :
    parseTokens (ts ++ [t]) = .ok e := by
  have hdrop : dropComments (ts ++ [t]) = ts ++ [t] := by
    refine List.filter_eq_self.2 fun x hx => ?_
    rcases List.mem_append.1 hx with hx | hx
    · simpa using h.kind_ne_comment x hx
    · rw [List.mem_singleton.1 hx, ht]
      decide
  have hfit : (Env.ofTokens (ts ++ [t]) (some maxNesting)).Fits 0 n :=
    (Env.fits_iff_of_limit rfl).2 (by omega)
  have hrun := h.parseAll_append hfit (r := [t]) ht
  show (parseAll (Env.ofTokens (dropComments (ts ++ [t])) (some maxNesting)) 0
    (dropComments (ts ++ [t]))).result = _
  rw [hdrop, ← Parsed.view_result, hrun]

end Sentence

open Sentence

/-- Render a parsed tree and read it back: when every literal of the tree is written in a form
that reads back as itself, the rendering scans without error and parses into the same tree,
positions aside. No parentheses are needed, because a tree read from a text already nests as
the precedence and the associativity of its operators say. -/
theorem render_reparses (s : Text) (e : Expr Nat) (he : (parseSource s).result = some (.ok e))
    (hlit : ∀ v ∈ e.literals, v.ReadsBack) :
    (parseSource e.render).errors = [] ∧
      ∃ e', (parseSource e.render).result = some (.ok e') ∧ e'.strip = e.strip := by
  -- the source: its comment-free tokens begin with a sentence deriving `e`
  have hparse : parseTokens (scan s).tokens = .ok e := by
    simp only [parseSource] at he
    split at he
    · exact Option.some.inj he
    · cases he
  obtain ⟨r, hview⟩ : ∃ r, (parseAll (Env.ofTokens (dropComments (scan s).tokens)
      (some maxNesting)) 0 (dropComments (scan s).tokens)).view = (.ok e, r) :=
    ⟨_, by rw [Parsed.view, ← hparse]; rfl⟩
  obtain ⟨p, n, hsplit, hp, hfit⟩ := Comma.of_parseAll (endTokenAfter_kind _) hview
  have hn : n ≤ maxNesting := by
    have := (Env.fits_iff_of_limit rfl).1 hfit
    omega
  have hops : ∀ t ∈ p, Rereads t := fun t ht =>
    scanFrom_rereads _ _ t (List.mem_filter.1 (hsplit ▸ List.mem_append_left _ ht)).1
  -- the rendering: scanned into a sentence of the same form, then parsed
  obtain ⟨us, e', hscan, hus, hst⟩ := hp.reprints hops hlit Position.initial
  have hscan' : scan e.render = ⟨us ++ [endToken _], []⟩ := hscan.scanFrom_eq
  refine ⟨by simp [parseSource, hscan'], e', ?_, hst⟩
  simp only [parseSource, hscan', List.isEmpty_nil, if_true]
  rw [hus.parseTokens_append_eof hn rfl]

end ExprFront
