import ExprFront.Parse.Cursor
import ExprFront.Scan.Basic
import ExprFront.Proofs.Parse.Language
import ExprFront.Proofs.Parse.Calls
/-!
# A parser stepped by hand

A cursor is driven by any sequence of steps: looking at the next token, taking it, requiring
a kind, recovering after an error, or running a grammar level from where it stands. Whatever
the sequence, a step does one thing to the cursor: it moves the position on over tokens that
are not the end of input (`Cursor.step_moves`). Taking a token stops at an end-of-input token,
recovery stops before one, and no grammar function takes one (`Grammar.Call.run_passesNoEnd`).
A grammar level that fails leaves the position where it stopped and the depth as it was.

So every cursor reached from the start keeps the comment-free tokens, no condition level open
and the limit `maxNesting`, and its position never passes the first end-of-input token
(`Cursor.Sound`). While a step runs, the condition levels open are the calls its grammar run
reaches, and a condition opens one only below the limit, so there are never more than
`maxNesting`.

The end-of-input token a cursor sees past its tokens is made up from the last one. A suffix
that keeps that last token sees the same one, so a grammar level run from a reached position
gives what it gives on a fresh cursor over the tokens from there, and moves as far.

Main statements (`Cursor.Reachable.within_bounds`, `Cursor.Reachable.resumes_fresh`).
-/

namespace ExprFront

namespace Grammar

variable {π : Type}

/-- Going from `ts` to its suffix `r` passes no end-of-input token. -/
def PassesNoEnd (ts r : List (Token π)) : Prop := ∃ p, ts = p ++ r ∧ ∀ t ∈ p, t.kind ≠ .eof

namespace PassesNoEnd

theorem refl (ts : List (Token π)) : PassesNoEnd ts ts := ⟨[], rfl, by simp⟩

theorem trans {ts r r' : List (Token π)} (h : PassesNoEnd ts r) (h' : PassesNoEnd r r') :
    PassesNoEnd ts r' := by
  obtain ⟨p, rfl, hp⟩ := h
  obtain ⟨p', rfl, hp'⟩ := h'
  refine ⟨p ++ p', by rw [List.append_assoc], fun t ht => ?_⟩
  rcases List.mem_append.1 ht with ht | ht
  · exact hp t ht
  · exact hp' t ht

theorem cons {t : Token π} {rest r : List (Token π)} (ht : t.kind ≠ .eof)
    (h : PassesNoEnd rest r) : PassesNoEnd (t :: rest) r :=
  PassesNoEnd.trans ⟨[t], rfl, by simpa using ht⟩ h

theorem suffix {ts r : List (Token π)} (h : PassesNoEnd ts r) : r <:+ ts := by
  obtain ⟨p, rfl, -⟩ := h
  exact List.suffix_append p r

/-- A run continued after a first outcome passes no end-of-input token when neither part
does. -/
theorem andThen {α β : Type} {ts : List (Token π)} {o : Except (ParseError π) α × List (Token π)}
    {k : α → List (Token π) → Except (ParseError π) β × List (Token π)}
    (h : PassesNoEnd ts o.2) (hk : ∀ a r, o = (.ok a, r) → PassesNoEnd r (k a r).2) :
    PassesNoEnd ts (Grammar.andThen o k).2 := by
  obtain ⟨_ | a, r⟩ := o
  · exact h
  · exact h.trans (hk a r rfl)

end PassesNoEnd

variable {env : Env π}

/-- `expect` takes a token only when it is not the end of input. -/
theorem expect_passesNoEnd (k : TokenKind) (ts : List (Token π)) :
    PassesNoEnd ts (expect env k ts).view.2 := by
  rw [expect_view]
  split
  · rename_i hk
    split
    · exact .refl ts
    · rename_i he
      cases ts with
      | nil => exact .refl []
      | cons t rest => exact .cons (by rw [← hk] at he; exact he) (.refl rest)
  · exact .refl ts

theorem BinaryLevel.eof_not_mem_operators (level : BinaryLevel) :
    TokenKind.eof ∉ level.operators := by
  cases level <;> simp [BinaryLevel.operators]

/-- The run of prefix operators is made of `-` and `!`, so it takes no end-of-input token. -/
theorem prefixRun_passesNoEnd (ts : List (Token π)) : PassesNoEnd ts (prefixRun ts).2.1 := by
  obtain ⟨hsplit, hkinds⟩ := prefixRun_spec ts
  refine ⟨(prefixRun ts).1, hsplit.symm, fun t ht heof => ?_⟩
  have := hkinds t ht
  rw [heof] at this
  cases this

/-- No grammar function takes an end-of-input token, whether it succeeds or fails: each token
it takes has the kind of a comma, an operator, a literal, a parenthesis, `?` or `:`. -/
theorem Call.run_passesNoEnd (env : Env π) (c : Call π) : PassesNoEnd c.tokens (c.run env).2 := by
  refine Call.induction env (P := fun c => PassesNoEnd c.tokens (c.run env).2) (fun c ih => ?_) c
  cases c with
  | comma d ts =>
    show PassesNoEnd ts (Grammar.comma env d ts).view.2
    rw [comma_view]
    exact (ih _ .comma_ternary).andThen fun _ _ h => ih _ (.comma_tail h)
  | commaTail d lhs ts =>
    show PassesNoEnd ts (Grammar.commaTail env d lhs ts).view.2
    cases ts with
    | nil => rw [commaTail_nil]; exact .refl []
    | cons t rest =>
      by_cases hk : t.kind = .comma
      · rw [commaTail_comma env d lhs hk]
        refine PassesNoEnd.cons (by rw [hk]; decide) ?_
        exact (ih _ (.commaTail_ternary hk)).andThen fun _ _ h => ih _ (.commaTail_tail hk h)
      · rw [commaTail_stop env d lhs (by rwa [Env.peek_cons])]
        exact .refl _
  | ternary d ts =>
    show PassesNoEnd ts (Grammar.ternary env d ts).view.2
    cases hb : env.blocks d with
    | some n => rw [ternary_blocked env d hb]; exact .refl ts
    | none =>
      rw [ternary_open env d hb]
      refine (ih _ (.ternary_binary hb)).andThen fun c r hc => ?_
      cases r with
      | nil => exact .refl []
      | cons q r1 =>
        by_cases hq : q.kind = .question
        · simp only [if_pos hq]
          refine PassesNoEnd.cons (by rw [hq]; decide) ?_
          refine (ih _ (.ternary_then hb hc hq)).andThen fun th r2 hth => ?_
          refine (expect_passesNoEnd _ _).andThen fun k r3 hk => ?_
          exact (ih _ (.ternary_else hb hc hq hth hk)).andThen fun _ r4 _ => .refl r4
        · simp only [if_neg hq]
          exact .refl _
  | binary d level ts =>
    show PassesNoEnd ts (Grammar.binary env d level ts).view.2
    rw [binary_view]
    exact (ih _ .binary_operand).andThen fun _ _ h => ih _ (.binary_tail h)
  | binaryTail d level lhs ts =>
    show PassesNoEnd ts (Grammar.binaryTail env d level lhs ts).view.2
    cases ts with
    | nil => rw [binaryTail_nil]; exact .refl []
    | cons t rest =>
      by_cases hk : t.kind ∈ level.operators
      · rw [binaryTail_operator env d level lhs hk]
        have hne : t.kind ≠ .eof := fun heof => level.eof_not_mem_operators (heof ▸ hk)
        exact .cons hne ((ih _ (.binaryTail_operand hk)).andThen fun _ _ h =>
          ih _ (.binaryTail_tail hk h))
      · rw [binaryTail_stop env d level lhs (by rwa [Env.peek_cons])]
        exact .refl _
  | operand d level ts =>
    show PassesNoEnd ts (Grammar.operand env d level ts).view.2
    cases level with
    | equality => rw [operand_equality]; exact ih _ .operand_equality
    | comparison => rw [operand_comparison]; exact ih _ .operand_comparison
    | term => rw [operand_term]; exact ih _ .operand_term
    | factor => rw [operand_factor]; exact ih _ .operand_factor
  | unary d ts =>
    show PassesNoEnd ts (Grammar.unary env d ts).view.2
    rw [unary_view]
    exact (prefixRun_passesNoEnd ts).trans ((ih _ .unary_primary).andThen fun _ r _ => .refl r)
  | primary d ts =>
    show PassesNoEnd ts (Grammar.primary env d ts).view.2
    cases ts with
    | nil => rw [primary_nil]; exact .refl []
    | cons t rest =>
      cases hl : isLiteralKind t.kind
      · by_cases hp : t.kind = .leftParen
        · rw [primary_group env d hl hp]
          refine PassesNoEnd.cons (by rw [hp]; decide) ?_
          exact (ih _ (.primary_group hp)).andThen fun _ r _ =>
            (expect_passesNoEnd _ r).andThen fun _ r' _ => .refl r'
        · rw [primary_other env d hl hp]
          exact .refl _
      · rw [primary_literal env d hl]
        have hne : t.kind ≠ .eof := by
          rintro heof
          rw [heof] at hl
          cases hl
        exact .cons hne (.refl rest)

/-- A whole parse takes no end-of-input token: it only looks at the one that ends it. -/
theorem parseAll_passesNoEnd (env : Env π) (d : Nat) (ts : List (Token π)) :
    PassesNoEnd ts (parseAll env d ts).view.2 := by
  rw [parseAll_view]
  exact (Call.run_passesNoEnd env (.comma d ts)).andThen fun _ r _ =>
    (expect_passesNoEnd .eof r).andThen fun _ r' _ => .refl r'

/-! ## The depth of the calls a run makes -/

/-- A call made by a call within the limit is within it: a condition opens its level only when
that level fits. -/
theorem Calls.depth_le {N : Nat} (hN : env.limit = some N) {c y : Call π} (h : Calls env c y)
    (hc : c.depth ≤ N) : y.depth ≤ N := by
  rw [h.depth_eq]
  cases h with
  | ternary_binary hb | ternary_then hb _ _ | ternary_else hb _ _ _ _ =>
    exact (Env.fits_iff_of_limit hN).1 (Env.blocks_eq_none_iff.1 hb)
  | _ => exact hc

/-- Every call a run makes stays within the limit when the run starts within it. -/
theorem Reaches.depth_le {N : Nat} (hN : env.limit = some N) {c y : Call π}
    (h : Reaches env c y) (hc : c.depth ≤ N) : y.depth ≤ N := by
  induction h with
  | refl => exact hc
  | tail _ hyz ih => exact hyz.depth_le hN ih

end Grammar

open Grammar

/-- A suffix of tokens without comments has none to drop. -/
theorem dropComments_drop {π : Type} (tokens : List (Token π)) (n : Nat) :
    dropComments ((dropComments tokens).drop n) = (dropComments tokens).drop n :=
  List.filter_eq_self.2 fun _ ht => (List.mem_filter.1 (List.mem_of_mem_drop ht)).2

/-- A suffix that keeps the last token sees the same end-of-input token past it. -/
theorem endTokenAfter_drop {π : Type} [Coord π] {ts : List (Token π)} {n : Nat}
    (h : n < ts.length) : endTokenAfter (ts.drop n) = endTokenAfter ts := by
  unfold endTokenAfter
  rw [List.getLast?_drop, if_neg (by omega)]

namespace Cursor

variable {π : Type}

/-! ## What a step does to the cursor -/

/-- `c'` is `c` with its position moved on by at most what is left, over tokens that are not
the end of input. -/
def Moves (c c' : Cursor π) : Prop :=
  ∃ k, c' = { c with pos := c.pos + k } ∧ k ≤ c.rest.length ∧ PassesNoEnd c.rest (c.rest.drop k)

theorem Moves.refl (c : Cursor π) : Moves c c := ⟨0, rfl, Nat.zero_le _, .refl _⟩

theorem Moves.trans {c c' c'' : Cursor π} (h : Moves c c') (h' : Moves c' c'') : Moves c c'' := by
  obtain ⟨k, rfl, hk, hpass⟩ := h
  obtain ⟨k', rfl, hk', hpass'⟩ := h'
  have hrest : ({ c with pos := c.pos + k } : Cursor π).rest = c.rest.drop k := by
    simp only [rest, List.drop_drop]
  rw [hrest] at hk' hpass'
  refine ⟨k + k', by simp only [Nat.add_assoc], ?_, ?_⟩
  · simp only [List.length_drop] at hk'
    omega
  · rw [← List.drop_drop]
    exact hpass.trans hpass'

/-- Recovery skips tokens that are not the end of input, no more than there are. -/
theorem skipCount_passesNoEnd (prev : Option (Token π)) (ts : List (Token π)) :
    skipCount prev ts ≤ ts.length ∧ PassesNoEnd ts (ts.drop (skipCount prev ts)) := by
  induction ts generalizing prev with
  | nil => exact ⟨Nat.zero_le _, .refl []⟩
  | cons t rest ih =>
    unfold skipCount
    split
    · exact ⟨Nat.zero_le _, .refl _⟩
    rename_i he
    split
    · exact ⟨Nat.zero_le _, .refl _⟩
    split
    · exact ⟨Nat.zero_le _, .refl _⟩
    obtain ⟨hle, hpass⟩ := ih (some t)
    exact ⟨by simp only [List.length_cons]; omega, by simpa using PassesNoEnd.cons he hpass⟩

/-! ## What a reached cursor keeps -/

/-- What every cursor reached from the start of `tokens` keeps: the comment-free tokens, no
condition level open, the limit, and a position within the tokens that no end-of-input token
comes before. -/
structure Sound (tokens : List (Token π)) (c : Cursor π) : Prop where
  tokens_eq : c.tokens = dropComments tokens
  depth_eq : c.depth = 0
  limit_eq : c.limit = some maxNesting
  pos_le : c.pos ≤ c.tokens.length
  passesNoEnd : PassesNoEnd c.tokens c.rest

variable {tokens : List (Token π)} {c : Cursor π}

theorem Sound.of_moves {c' : Cursor π} (h : Sound tokens c) (hm : Moves c c') : Sound tokens c' := by
  obtain ⟨k, rfl, hk, hpass⟩ := hm
  have hlen : c.rest.length = c.tokens.length - c.pos := List.length_drop
  have hpos := h.pos_le
  refine ⟨h.tokens_eq, h.depth_eq, h.limit_eq, by simp only; omega, ?_⟩
  show PassesNoEnd c.tokens (c.tokens.drop (c.pos + k))
  rw [← List.drop_drop]
  exact h.passesNoEnd.trans hpass

/-- The position is at most the index of the first end-of-input token of the comment-free
tokens, their length when they have none. -/
theorem Sound.pos_le_readable (h : Sound tokens c) : c.pos ≤ (Sentence.readable tokens).length := by
  obtain ⟨p, hsplit, hp⟩ := h.passesNoEnd
  have hplen : p.length = c.pos := by
    have hlen := congrArg List.length hsplit
    simp only [rest, List.length_append, List.length_drop] at hlen
    have := h.pos_le
    omega
  unfold Sentence.readable
  rw [← h.tokens_eq, hsplit, List.takeWhile_append_of_pos (fun t ht => by simpa using hp t ht),
    List.length_append]
  omega

theorem previous_isSome (hc : c.pos ≤ c.tokens.length) (h0 : c.pos ≠ 0) : c.previous.isSome := by
  simp [previous, h0, List.getElem?_eq_getElem (by omega : c.pos - 1 < c.tokens.length)]

variable [Coord π]

theorem env_atEnd_kind (c : Cursor π) : c.env.atEnd.kind = .eof := endTokenAfter_kind c.tokens

theorem advance_moves (c : Cursor π) : Moves c c.advance.2 := by
  show Moves c (if c.peekToken.kind = .eof then c else { c with pos := c.pos + 1 })
  by_cases he : c.peekToken.kind = .eof
  · rw [if_pos he]
    exact .refl c
  · rw [if_neg he]
    -- a token that is not the end of input is a real one
    cases hr : c.rest with
    | nil =>
      exact absurd (by rw [peekToken, hr]; exact c.env_atEnd_kind) he
    | cons t rest =>
      have ht : t.kind ≠ .eof := by rwa [peekToken, hr] at he
      refine ⟨1, rfl, by rw [hr]; simp, ?_⟩
      rw [hr]
      exact PassesNoEnd.cons ht (.refl rest)

theorem synchronize_moves (c : Cursor π) : Moves c c.synchronize := by
  refine (advance_moves c).trans ?_
  obtain ⟨hle, hpass⟩ := skipCount_passesNoEnd c.advance.2.previous c.advance.2.rest
  exact ⟨_, rfl, hle, hpass⟩

/-- A grammar run from a cursor within its tokens moves it to where the run stopped. -/
theorem run_moves (c : Cursor π) (hc : c.pos ≤ c.tokens.length)
    (f : Env π → Nat → (ts : List (Token π)) → Parsed ts (Expr π))
    (hf : PassesNoEnd c.rest (f c.env c.depth c.rest).rest) : Moves c (c.run f).2 := by
  show Moves c { c with pos := c.tokens.length - (f c.env c.depth c.rest).rest.length }
  generalize (f c.env c.depth c.rest).rest = r at hf ⊢
  obtain ⟨p, hsplit, hp⟩ := hf
  have hlen : c.rest.length = c.tokens.length - c.pos := List.length_drop
  have hplen : p.length + r.length = c.tokens.length - c.pos := by
    rw [← hlen, hsplit, List.length_append]
  refine ⟨p.length, ?_, by omega, ?_⟩
  · congr 1
    omega
  · rw [hsplit, List.drop_left]
    exact ⟨p, rfl, hp⟩

/-- Every step moves the position on over tokens that are not the end of input, and changes
nothing else. -/
theorem step_moves (c : Cursor π) (hc : c.pos ≤ c.tokens.length) (s : Step) :
    Moves c (c.step s).2 := by
  cases s with
  | peek | peekToken | previous | atEof | check _ => exact .refl c
  | advance => exact advance_moves c
  | matchAny ks =>
    dsimp only [step]
    split
    · exact advance_moves c
    · exact .refl c
  | expect k =>
    dsimp only [step]
    split
    · exact advance_moves c
    · exact .refl c
  | synchronize => exact synchronize_moves c
  | parse => exact run_moves c hc _ (parseAll_passesNoEnd c.env c.depth c.rest)
  | expression | comma => exact run_moves c hc _ (Call.run_passesNoEnd c.env (.comma c.depth c.rest))
  | ternary => exact run_moves c hc _ (Call.run_passesNoEnd c.env (.ternary c.depth c.rest))
  | unary => exact run_moves c hc _ (Call.run_passesNoEnd c.env (.unary c.depth c.rest))
  | primary => exact run_moves c hc _ (Call.run_passesNoEnd c.env (.primary c.depth c.rest))

/-- Each grammar step runs one grammar function from the cursor. -/
theorem step_eq_run {s : Step}
    (hs : s ∈ [Step.parse, .expression, .comma, .ternary, .unary, .primary]) :
    ∃ f : Env π → Nat → (ts : List (Token π)) → Parsed ts (Expr π),
      ∀ c : Cursor π, c.step s = (.parsed (c.run f).1, (c.run f).2) := by
  simp only [List.mem_cons, List.not_mem_nil, or_false] at hs
  rcases hs with rfl | rfl | rfl | rfl | rfl | rfl
  · exact ⟨parseAll, fun _ => rfl⟩
  · exact ⟨Grammar.comma, fun _ => rfl⟩
  · exact ⟨Grammar.comma, fun _ => rfl⟩
  · exact ⟨Grammar.ternary, fun _ => rfl⟩
  · exact ⟨Grammar.unary, fun _ => rfl⟩
  · exact ⟨Grammar.primary, fun _ => rfl⟩

/-! ## Cursors reached by steps -/

/-- The cursors reached from the start of a list of tokens by finitely many steps. -/
inductive Reachable (tokens : List (Token π)) : Cursor π → Prop where
  | start : Reachable tokens (ofTokens tokens)
  | step {c : Cursor π} (s : Step) : Reachable tokens c → Reachable tokens (c.step s).2

theorem Reachable.sound (h : Reachable tokens c) : Sound tokens c := by
  induction h with
  | start => exact ⟨rfl, rfl, rfl, Nat.zero_le _, .refl _⟩
  | step s _ ih => exact ih.of_moves (step_moves _ ih.pos_le s)

/-- Whatever steps are taken from the start of a list of tokens, between them no condition
level is open, the position is at most the index of the first end-of-input token of the
comment-free tokens and the token before it can be read, and no step moves it back; and while
a step runs, every call of its grammar run, which starts at the cursor's depth, has at most
`maxNesting` levels open. -/
theorem Reachable.within_bounds (h : Reachable tokens c) :
    c.depth = 0 ∧ c.pos ≤ (Sentence.readable tokens).length ∧ (c.pos = 0 ∨ c.previous.isSome) ∧
      (∀ s, c.pos ≤ (c.step s).2.pos) ∧
      ∀ x y : Call π, x.depth = c.depth → Reaches c.env x y → y.depth ≤ maxNesting := by
  have hc := h.sound
  refine ⟨hc.depth_eq, hc.pos_le_readable, ?_, fun s => ?_, fun x y hx hxy => ?_⟩
  · by_cases h0 : c.pos = 0
    · exact .inl h0
    · exact .inr (previous_isSome hc.pos_le h0)
  · obtain ⟨k, hk, -⟩ := step_moves c hc.pos_le s
    rw [hk]
    exact Nat.le_add_right _ _
  · exact hxy.depth_le hc.limit_eq (by rw [hx, hc.depth_eq]; exact Nat.zero_le _)

/-- After `1`, recovery in `1 ; 2` skips the `;` and stops before `2`. -/
theorem within_bounds_synchronize :
    Reachable (Scan.scan (Text.ofString "1 ; 2")).tokens
        ((ofTokens (Scan.scan (Text.ofString "1 ; 2")).tokens).step .synchronize).2 ∧
      ((ofTokens (Scan.scan (Text.ofString "1 ; 2")).tokens).step .synchronize).2.depth = 0 ∧
      ((ofTokens (Scan.scan (Text.ofString "1 ; 2")).tokens).step .synchronize).2.pos ≤
        (Sentence.readable (Scan.scan (Text.ofString "1 ; 2")).tokens).length ∧
      (((ofTokens (Scan.scan (Text.ofString "1 ; 2")).tokens).step .synchronize).2.pos = 0 ∨
        ((ofTokens (Scan.scan (Text.ofString "1 ; 2")).tokens).step .synchronize).2.previous.isSome) ∧
      (∀ s, ((ofTokens (Scan.scan (Text.ofString "1 ; 2")).tokens).step .synchronize).2.pos ≤
        (((ofTokens (Scan.scan (Text.ofString "1 ; 2")).tokens).step .synchronize).2.step s).2.pos) ∧
      ∀ x y : Call Nat,
        x.depth = ((ofTokens (Scan.scan (Text.ofString "1 ; 2")).tokens).step .synchronize).2.depth →
        Reaches ((ofTokens (Scan.scan (Text.ofString "1 ; 2")).tokens).step .synchronize).2.env x y →
        y.depth ≤ maxNesting :=
  have hr : Reachable (Scan.scan (Text.ofString "1 ; 2")).tokens
      ((ofTokens (Scan.scan (Text.ofString "1 ; 2")).tokens).step .synchronize).2 :=
    .step .synchronize .start
  ⟨hr, hr.within_bounds⟩

/-! ## Resuming from a reached position -/

/-- A grammar run from a cursor gives what it gives from the start of a second cursor whose
tokens are the first one's from its position on, seen with the same end token, depth and limit;
and it moves as far. -/
theorem run_resumes {c c' : Cursor π} (hc : c.pos ≤ c.tokens.length) (henv : c.env = c'.env)
    (hd : c.depth = c'.depth) (hrest : c.rest = c'.tokens) (hpos : c'.pos = 0)
    (f : Env π → Nat → (ts : List (Token π)) → Parsed ts (Expr π)) :
    (c.run f).1 = (c'.run f).1 ∧ (c.run f).2.pos = c.pos + (c'.run f).2.pos := by
  have hr : c'.rest = c.rest := by rw [rest, hpos, List.drop_zero, hrest]
  have hlen : c.rest.length = c.tokens.length - c.pos := List.length_drop
  have hsuffix := (f c.env c.depth c.rest).suffix.length_le
  show (f c.env c.depth c.rest).result = (f c'.env c'.depth c'.rest).result ∧
    c.tokens.length - (f c.env c.depth c.rest).rest.length =
      c.pos + (c'.tokens.length - (f c'.env c'.depth c'.rest).rest.length)
  rw [← henv, ← hd, hr, ← hrest]
  exact ⟨rfl, by omega⟩

/-- A grammar step from a reached cursor, at a position short of the end of the comment-free
tokens, gives what it gives on a fresh cursor over the tokens from that position, and leaves
the position as far on from where it was as the fresh cursor's is from the start: no condition
level is left open, and the suffix keeps the last token, so it sees the same end of input. -/
theorem Reachable.resumes_fresh (h : Reachable tokens c)
    (hpos : c.pos < (dropComments tokens).length) {s : Step}
    (hs : s ∈ [Step.parse, .expression, .comma, .ternary, .unary, .primary]) :
    (c.step s).1 = ((ofTokens ((dropComments tokens).drop c.pos)).step s).1 ∧
      (c.step s).2.pos = c.pos + ((ofTokens ((dropComments tokens).drop c.pos)).step s).2.pos := by
  have hc := h.sound
  obtain ⟨f, hf⟩ := @step_eq_run π _ s hs
  have henv : c.env = (ofTokens ((dropComments tokens).drop c.pos)).env := by
    show Env.ofTokens c.tokens c.limit =
      Env.ofTokens (dropComments ((dropComments tokens).drop c.pos)) (some maxNesting)
    rw [hc.tokens_eq, hc.limit_eq, dropComments_drop]
    unfold Env.ofTokens
    rw [endTokenAfter_drop hpos]
  have hrest : c.rest = (ofTokens ((dropComments tokens).drop c.pos) : Cursor π).tokens := by
    show c.tokens.drop c.pos = dropComments ((dropComments tokens).drop c.pos)
    rw [hc.tokens_eq, dropComments_drop]
  obtain ⟨h1, h2⟩ := run_resumes hc.pos_le henv hc.depth_eq hrest rfl f
  rw [hf c, hf]
  exact ⟨by rw [h1], h2⟩

/-- Recovery in `1 ; 2` stops before `2`, where a parse reads `2` as a fresh one does. -/
theorem resumes_fresh_synchronize :
    Reachable (Scan.scan (Text.ofString "1 ; 2")).tokens
        ((ofTokens (Scan.scan (Text.ofString "1 ; 2")).tokens).step .synchronize).2 ∧
      ((ofTokens (Scan.scan (Text.ofString "1 ; 2")).tokens).step .synchronize).2.pos <
        (dropComments (Scan.scan (Text.ofString "1 ; 2")).tokens).length ∧
      Step.parse ∈ [Step.parse, .expression, .comma, .ternary, .unary, .primary] ∧
      (((ofTokens (Scan.scan (Text.ofString "1 ; 2")).tokens).step .synchronize).2.step .parse).1 =
          ((ofTokens ((dropComments (Scan.scan (Text.ofString "1 ; 2")).tokens).drop
            ((ofTokens (Scan.scan (Text.ofString "1 ; 2")).tokens).step .synchronize).2.pos)).step
              .parse).1 ∧
        (((ofTokens (Scan.scan (Text.ofString "1 ; 2")).tokens).step .synchronize).2.step
            .parse).2.pos =
          ((ofTokens (Scan.scan (Text.ofString "1 ; 2")).tokens).step .synchronize).2.pos +
            ((ofTokens ((dropComments (Scan.scan (Text.ofString "1 ; 2")).tokens).drop
              ((ofTokens (Scan.scan (Text.ofString "1 ; 2")).tokens).step .synchronize).2.pos)).step
                .parse).2.pos :=
  have hr : Reachable (Scan.scan (Text.ofString "1 ; 2")).tokens
      ((ofTokens (Scan.scan (Text.ofString "1 ; 2")).tokens).step .synchronize).2 :=
    .step .synchronize .start
  have hpos : ((ofTokens (Scan.scan (Text.ofString "1 ; 2")).tokens).step .synchronize).2.pos <
      (dropComments (Scan.scan (Text.ofString "1 ; 2")).tokens).length := by
    decide +kernel
  have hs : Step.parse ∈ [Step.parse, .expression, .comma, .ternary, .unary, .primary] :=
    List.mem_cons_self
  ⟨hr, hpos, hs, hr.resumes_fresh hpos hs⟩

end Cursor

end ExprFront
