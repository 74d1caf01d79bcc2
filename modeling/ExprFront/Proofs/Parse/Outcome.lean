import ExprFront.Parse.Parser
/-!
# What one branch of a grammar function gives

A grammar function returns a `Parsed` value: a result, the tokens left, and a proof that these
are a suffix of the input. The proof field gets in the way of rewriting, so every statement
about the parser is made about the outcome `(result, rest)` alone (`Parsed.view`). A run that
continues after a first step is written with `andThen`, which stops at an error and carries
its rest along.

Each grammar function gets one lemma per branch of its definition, saying what its outcome is
in terms of the outcomes of the functions it calls. Nothing later unfolds a grammar function:
the soundness, completeness and locality proofs only rewrite with these lemmas.

The nesting limit enters through `Env.Fits`: `n` more levels opened at `depth` stay within
the limit. A condition opened at `depth` is blocked exactly when `depth + 1` levels do not fit.
-/

namespace ExprFront.Grammar

variable {π : Type}

/-- The result and the rest of a run, without the proof that the rest is a suffix. -/
def Parsed.view {ts : List (Token π)} {α : Type} (p : Parsed ts α) :
    Except (ParseError π) α × List (Token π) :=
  (p.result, p.rest)

@[simp] theorem Parsed.view_result {ts : List (Token π)} {α : Type} (p : Parsed ts α) :
    p.view.1 = p.result := rfl

theorem Parsed.view_of_eq {ts r : List (Token π)} {α : Type} {p : Parsed ts α}
    {res : Except (ParseError π) α} {h : r <:+ ts} (hp : p = ⟨res, r, h⟩) : p.view = (res, r) := by
  rw [hp]
  rfl

/-- Continue after a first outcome: from its rest with the value it read, or stop with its
error where it stopped. -/
def andThen {α β : Type} (o : Except (ParseError π) α × List (Token π))
    (k : α → List (Token π) → Except (ParseError π) β × List (Token π)) :
    Except (ParseError π) β × List (Token π) :=
  match o with
  | (.ok a, r) => k a r
  | (.error e, r) => (.error e, r)

@[simp] theorem andThen_ok {α β : Type} (a : α) (r : List (Token π))
    (k : α → List (Token π) → Except (ParseError π) β × List (Token π)) :
    andThen (.ok a, r) k = k a r := rfl

@[simp] theorem andThen_error {α β : Type} (e : ParseError π) (r : List (Token π))
    (k : α → List (Token π) → Except (ParseError π) β × List (Token π)) :
    andThen (.error e, r) k = (.error e, r) := rfl

/-- `n` more condition levels opened at `depth` stay within the limit. -/
def Env.Fits (env : Env π) (depth n : Nat) : Prop :=
  ∀ N, env.limit = some N → depth + n ≤ N

namespace Env

variable {env : Env π}

theorem Fits.mono {d n m : Nat} (h : env.Fits d n) (hm : m ≤ n) : env.Fits d m :=
  fun N hN => by have := h N hN; omega

theorem fits_succ {d n : Nat} : env.Fits (d + 1) n ↔ env.Fits d (n + 1) := by
  simp only [Fits, Nat.add_right_comm, Nat.add_assoc]

theorem fits_none {d n : Nat} (h : env.limit = none) : env.Fits d n := by
  intro N hN
  rw [h] at hN
  cases hN

theorem fits_iff_of_limit {d n N : Nat} (h : env.limit = some N) :
    env.Fits d n ↔ d + n ≤ N := by
  refine ⟨fun hf => hf N h, fun hle N' hN' => ?_⟩
  rw [h, Option.some.injEq] at hN'
  exact hN' ▸ hle

theorem blocks_eq_none_iff {d : Nat} : env.blocks d = none ↔ env.Fits d 1 := by
  unfold blocks Fits
  cases env.limit with
  | none => simp
  | some N =>
    show (if N ≤ d then some N else none) = none ↔ _
    by_cases hd : N ≤ d
    · rw [if_pos hd]
      exact ⟨fun h => (Option.some_ne_none N h).elim, fun h => absurd (h N rfl) (by omega)⟩
    · rw [if_neg hd]
      exact ⟨fun _ N' hN' => by cases hN'; omega, fun _ => rfl⟩

@[simp] theorem peek_nil : env.peek [] = env.atEnd := rfl

@[simp] theorem peek_cons (t : Token π) (ts : List (Token π)) : env.peek (t :: ts) = t := rfl

end Env

variable (env : Env π) (d : Nat)

/-! ## Taking a token of a required kind -/

theorem expect_view (k : TokenKind) (ts : List (Token π)) :
    (expect env k ts).view =
      if (env.peek ts).kind = k then
        (.ok (env.peek ts), if k = .eof then ts else ts.drop 1)
      else (.error (.unexpectedToken k (env.peek ts)), ts) := by
  cases ts with
  | nil => unfold expect; split <;> simp_all [Parsed.view, Parsed.failHere]
  | cons t rest =>
    unfold expect
    by_cases hk : t.kind = k
    · by_cases he : k = .eof <;> simp [hk, he, Parsed.view]
    · simp [hk, Parsed.view, Parsed.failHere]

theorem expect_of_kind {k : TokenKind} {t : Token π} (hk : t.kind = k) (he : k ≠ .eof)
    (rest : List (Token π)) : (expect env k (t :: rest)).view = (.ok t, rest) := by
  simp [expect_view, hk, he]

/-- A failed `expect` names the kind it wanted and the token it found, and reads nothing. -/
theorem expect_eq_error {k : TokenKind} {ts r : List (Token π)} {x : ParseError π}
    (h : (expect env k ts).view = (.error x, r)) :
    x = .unexpectedToken k (env.peek ts) ∧ r = ts := by
  rw [expect_view] at h
  split at h
  · cases h
  · simp only [Prod.mk.injEq, Except.error.injEq] at h
    exact ⟨h.1.symm, h.2.symm⟩

/-- A successful `expect` of a kind other than the end reads exactly the next token, which is a
real one when the end token past the list has the end kind. -/
theorem expect_eq_ok (hend : env.atEnd.kind = .eof) {k : TokenKind} (hk : k ≠ .eof)
    {ts r : List (Token π)} {a : Token π} (h : (expect env k ts).view = (.ok a, r)) :
    ts = a :: r ∧ a.kind = k := by
  rw [expect_view, if_neg hk] at h
  split at h
  · rename_i hpeek
    simp only [Prod.mk.injEq, Except.ok.injEq] at h
    obtain ⟨rfl, rfl⟩ := h
    cases ts with
    | nil => exact absurd (hend.symm.trans hpeek) (Ne.symm hk)
    | cons t rest => exact ⟨rfl, hpeek⟩
  · cases h

theorem expect_of_not_kind {k : TokenKind} {ts : List (Token π)} (hk : (env.peek ts).kind ≠ k) :
    (expect env k ts).view = (.error (.unexpectedToken k (env.peek ts)), ts) := by
  simp [expect_view, hk]

/-! ## The comma level -/

theorem comma_view (ts : List (Token π)) :
    (comma env d ts).view =
      andThen (ternary env d ts).view fun lhs r => (commaTail env d lhs r).view := by
  rw [comma]
  generalize ternary env d ts = p
  obtain ⟨_ | _, r, h⟩ := p <;> rfl

theorem commaTail_nil (lhs : Expr π) : (commaTail env d lhs []).view = (.ok lhs, []) := by
  rw [commaTail]
  rfl

theorem commaTail_comma (lhs : Expr π) {t : Token π} (hk : t.kind = .comma)
    (rest : List (Token π)) :
    (commaTail env d lhs (t :: rest)).view =
      andThen (ternary env d rest).view fun rhs r =>
        (commaTail env d (.binary lhs t rhs) r).view := by
  rw [commaTail, if_pos hk]
  generalize ternary env d rest = p
  obtain ⟨_ | _, r, h⟩ := p <;> rfl

/-- The loop stops at any token that is not a comma, and at the end of the list. -/
theorem commaTail_stop (lhs : Expr π) {ts : List (Token π)}
    (hk : (env.peek ts).kind ≠ .comma) : (commaTail env d lhs ts).view = (.ok lhs, ts) := by
  cases ts with
  | nil => exact commaTail_nil env d lhs
  | cons t rest =>
    rw [Env.peek_cons] at hk
    rw [commaTail, if_neg hk]
    rfl

/-! ## Conditions -/

theorem ternary_blocked {n : Nat} (h : env.blocks d = some n) (ts : List (Token π)) :
    (ternary env d ts).view = (.error (.nestingTooDeep (env.peek ts) n), ts) := by
  rw [ternary, h]
  rfl

/-- An open condition, branch by branch. The three lemmas after it are the cases used. -/
theorem ternary_open (h : env.blocks d = none) (ts : List (Token π)) :
    (ternary env d ts).view =
      andThen (binary env (d + 1) .equality ts).view fun c r =>
        match r with
        | q :: r1 =>
          if q.kind = .question then
            andThen (comma env (d + 1) r1).view fun th r2 =>
              andThen (expect env .colon r2).view fun _ r3 =>
                andThen (ternary env (d + 1) r3).view fun el r4 => (.ok (.condition c th el), r4)
          else (.ok c, q :: r1)
        | [] => (.ok c, []) := by
  rw [ternary, h]
  dsimp only
  generalize binary env (d + 1) .equality ts = p
  obtain ⟨_ | c, _ | ⟨q, r1⟩, h⟩ := p
  · rfl
  · rfl
  · rfl
  · dsimp only [Parsed.view, andThen]
    split
    · generalize comma env (d + 1) r1 = p2
      obtain ⟨_ | th, r2, h2⟩ := p2
      · rfl
      · dsimp only
        generalize expect env .colon r2 = p3
        obtain ⟨_ | k, r3, h3⟩ := p3
        · rfl
        · dsimp only
          generalize ternary env (d + 1) r3 = p4
          obtain ⟨_ | el, r4, h4⟩ := p4 <;> rfl
    · rfl

theorem ternary_error (h : env.blocks d = none) {ts r : List (Token π)} {e : ParseError π}
    (hb : (binary env (d + 1) .equality ts).view = (.error e, r)) :
    (ternary env d ts).view = (.error e, r) := by
  rw [ternary_open env d h, hb, andThen_error]

/-- A condition without `?`: the binary expression is the whole condition. -/
theorem ternary_plain (h : env.blocks d = none) {ts r : List (Token π)} {c : Expr π}
    (hb : (binary env (d + 1) .equality ts).view = (.ok c, r))
    (hq : (env.peek r).kind ≠ .question) : (ternary env d ts).view = (.ok c, r) := by
  rw [ternary_open env d h, hb, andThen_ok]
  cases r with
  | nil => rfl
  | cons q r1 => simp only [Env.peek_cons] at hq; simp only [if_neg hq]

theorem ternary_end (h : env.blocks d = none) {ts : List (Token π)} {c : Expr π}
    (hb : (binary env (d + 1) .equality ts).view = (.ok c, [])) :
    (ternary env d ts).view = (.ok c, []) := by
  rw [ternary_open env d h, hb, andThen_ok]

theorem ternary_not_question (h : env.blocks d = none) {ts r1 : List (Token π)} {c : Expr π}
    {q : Token π} (hb : (binary env (d + 1) .equality ts).view = (.ok c, q :: r1))
    (hq : q.kind ≠ .question) : (ternary env d ts).view = (.ok c, q :: r1) := by
  rw [ternary_open env d h, hb, andThen_ok]
  simp only [if_neg hq]

theorem ternary_question (h : env.blocks d = none) {ts r1 : List (Token π)} {c : Expr π}
    {q : Token π} (hb : (binary env (d + 1) .equality ts).view = (.ok c, q :: r1))
    (hq : q.kind = .question) :
    (ternary env d ts).view =
      andThen (comma env (d + 1) r1).view fun th r2 =>
        andThen (expect env .colon r2).view fun _ r3 =>
          andThen (ternary env (d + 1) r3).view fun el r4 => (.ok (.condition c th el), r4) := by
  rw [ternary_open env d h, hb, andThen_ok]
  simp only [if_pos hq]

/-! ## The binary levels -/

theorem binary_view (level : BinaryLevel) (ts : List (Token π)) :
    (binary env d level ts).view =
      andThen (operand env d level ts).view fun lhs r =>
        (binaryTail env d level lhs r).view := by
  rw [binary]
  generalize operand env d level ts = p
  obtain ⟨_ | _, r, h⟩ := p <;> rfl

theorem binaryTail_nil (level : BinaryLevel) (lhs : Expr π) :
    (binaryTail env d level lhs []).view = (.ok lhs, []) := by
  rw [binaryTail]
  rfl

theorem binaryTail_operator (level : BinaryLevel) (lhs : Expr π) {t : Token π}
    (hk : t.kind ∈ level.operators) (rest : List (Token π)) :
    (binaryTail env d level lhs (t :: rest)).view =
      andThen (operand env d level rest).view fun rhs r =>
        (binaryTail env d level (.binary lhs t rhs) r).view := by
  rw [binaryTail, if_pos (List.contains_iff_mem.2 hk)]
  generalize operand env d level rest = p
  obtain ⟨_ | _, r, h⟩ := p <;> rfl

/-- The loop of a level stops at any token that is not one of its operators. -/
theorem binaryTail_stop (level : BinaryLevel) (lhs : Expr π) {ts : List (Token π)}
    (hk : (env.peek ts).kind ∉ level.operators) :
    (binaryTail env d level lhs ts).view = (.ok lhs, ts) := by
  cases ts with
  | nil => exact binaryTail_nil env d level lhs
  | cons t rest =>
    rw [Env.peek_cons] at hk
    rw [binaryTail, if_neg (fun h => hk (List.contains_iff_mem.1 h))]
    rfl

@[simp] theorem operand_equality (ts : List (Token π)) :
    operand env d .equality ts = binary env d .comparison ts := by
  rw [operand]

@[simp] theorem operand_comparison (ts : List (Token π)) :
    operand env d .comparison ts = binary env d .term ts := by
  rw [operand]

@[simp] theorem operand_term (ts : List (Token π)) :
    operand env d .term ts = binary env d .factor ts := by
  rw [operand]

@[simp] theorem operand_factor (ts : List (Token π)) :
    operand env d .factor ts = unary env d ts := by
  rw [operand]

/-! ## Prefix operators -/

theorem prefixRun_nil : (prefixRun ([] : List (Token π))).1 = [] ∧
    (prefixRun ([] : List (Token π))).2.1 = [] := ⟨rfl, rfl⟩

/-- One step of the run, as the definition takes it. -/
theorem prefixRun_cons (t : Token π) (rest : List (Token π)) :
    prefixRun (t :: rest) =
      if isPrefixKind t.kind then
        (t :: (prefixRun rest).1,
          ⟨(prefixRun rest).2.1, (prefixRun rest).2.2.trans (List.suffix_cons t rest)⟩)
      else ([], ⟨t :: rest, List.suffix_refl _⟩) := rfl

theorem prefixRun_cons_operator {t : Token π} (ht : isPrefixKind t.kind = true)
    (rest : List (Token π)) :
    (prefixRun (t :: rest)).1 = t :: (prefixRun rest).1 ∧
      (prefixRun (t :: rest)).2.1 = (prefixRun rest).2.1 := by
  rw [prefixRun_cons, if_pos ht]
  exact ⟨rfl, rfl⟩

theorem prefixRun_cons_other {t : Token π} (ht : isPrefixKind t.kind = false)
    (rest : List (Token π)) :
    (prefixRun (t :: rest)).1 = [] ∧ (prefixRun (t :: rest)).2.1 = t :: rest := by
  rw [prefixRun_cons, if_neg (by simp [ht])]
  exact ⟨rfl, rfl⟩

/-- The run of prefix operators is a prefix of the list made of prefix operators. -/
theorem prefixRun_spec (ts : List (Token π)) :
    (prefixRun ts).1 ++ (prefixRun ts).2.1 = ts ∧
      ∀ t ∈ (prefixRun ts).1, isPrefixKind t.kind = true := by
  induction ts with
  | nil => simp [prefixRun_nil]
  | cons t rest ih =>
    cases ht : isPrefixKind t.kind with
    | true =>
      obtain ⟨h1, h2⟩ := prefixRun_cons_operator ht rest
      rw [h1, h2, List.cons_append, ih.1]
      refine ⟨rfl, fun u hu => ?_⟩
      rcases List.mem_cons.1 hu with rfl | hu
      · exact ht
      · exact ih.2 u hu
    | false =>
      obtain ⟨h1, h2⟩ := prefixRun_cons_other ht rest
      simp [h1, h2]

/-- The run stops at a token that is no prefix operator. -/
theorem prefixRun_stops {t : Token π} {r : List (Token π)} (ts : List (Token π))
    (h : (prefixRun ts).2.1 = t :: r) : isPrefixKind t.kind = false := by
  induction ts with
  | nil => simp [prefixRun_nil] at h
  | cons u rest ih =>
    cases hu : isPrefixKind u.kind with
    | true => exact ih (by rwa [(prefixRun_cons_operator hu rest).2] at h)
    | false =>
      rw [(prefixRun_cons_other hu rest).2, List.cons.injEq] at h
      rw [← h.1]
      exact hu

theorem unary_view (ts : List (Token π)) :
    (unary env d ts).view =
      andThen (primary env d (prefixRun ts).2.1).view fun e r =>
        (.ok ((prefixRun ts).1.foldr .unary e), r) := by
  rw [unary]
  generalize prefixRun ts = p
  obtain ⟨ops, r, h⟩ := p
  dsimp only
  generalize primary env d r = q
  obtain ⟨_ | _, r', h'⟩ := q <;> rfl

/-- A prefix operator applies to the prefix expression after it: the run read from the innermost
out gives the same tree as reading `op unary` to the right. -/
theorem unary_operator {t : Token π} (ht : isPrefixKind t.kind = true) (rest : List (Token π)) :
    (unary env d (t :: rest)).view =
      andThen (unary env d rest).view fun e r => (.ok (.unary t e), r) := by
  obtain ⟨h1, h2⟩ := prefixRun_cons_operator ht rest
  rw [unary_view, unary_view, h1, h2]
  generalize (primary env d (prefixRun rest).2.1).view = o
  obtain ⟨_ | _, r⟩ := o <;> rfl

theorem unary_no_operator {ts : List (Token π)}
    (ht : ∀ t rest, ts = t :: rest → isPrefixKind t.kind = false) :
    (unary env d ts).view = (primary env d ts).view := by
  have hrun : (prefixRun ts).1 = [] ∧ (prefixRun ts).2.1 = ts := by
    cases ts with
    | nil => exact prefixRun_nil
    | cons t rest => exact prefixRun_cons_other (ht t rest rfl) rest
  rw [unary_view, hrun.1, hrun.2]
  generalize (primary env d ts).view = o
  obtain ⟨_ | _, r⟩ := o <;> rfl

/-! ## Primaries -/

theorem primary_nil : (primary env d []).view = (.error (.expectedExpression env.atEnd), []) := by
  rw [primary]
  rfl

theorem primary_literal {t : Token π} (ht : isLiteralKind t.kind = true) (rest : List (Token π)) :
    (primary env d (t :: rest)).view =
      (.ok (.literal (t.literal.getD .nil) ⟨t.start, t.stop⟩), rest) := by
  rw [primary, if_pos ht]
  rfl

theorem primary_group {t : Token π} (ht : isLiteralKind t.kind = false)
    (hp : t.kind = .leftParen) (rest : List (Token π)) :
    (primary env d (t :: rest)).view =
      andThen (comma env d rest).view fun inner r =>
        andThen (expect env .rightParen r).view fun close r' =>
          (.ok (.grouping inner ⟨t.start, close.stop⟩), r') := by
  rw [primary, if_neg (by simp [ht]), if_pos hp]
  generalize comma env d rest = p
  obtain ⟨_ | inner, r, h⟩ := p
  · rfl
  · dsimp only [Parsed.view, andThen]
    generalize expect env .rightParen r = q
    obtain ⟨_ | close, r', h'⟩ := q <;> rfl

theorem primary_other {t : Token π} (ht : isLiteralKind t.kind = false)
    (hp : t.kind ≠ .leftParen) (rest : List (Token π)) :
    (primary env d (t :: rest)).view = (.error (.expectedExpression t), t :: rest) := by
  rw [primary, if_neg (by simp [ht]), if_neg hp]
  rfl

/-! ## A whole parse -/

theorem parseAll_view (ts : List (Token π)) :
    (parseAll env d ts).view =
      andThen (comma env d ts).view fun e r =>
        andThen (expect env .eof r).view fun _ r' => (.ok e, r') := by
  rw [parseAll]
  generalize comma env d ts = p
  obtain ⟨_ | e, r, h⟩ := p
  · rfl
  · dsimp only [Parsed.view, andThen]
    generalize expect env .eof r = q
    obtain ⟨_ | _, r', h'⟩ := q <;> rfl

end ExprFront.Grammar
