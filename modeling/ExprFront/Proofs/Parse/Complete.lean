import ExprFront.Proofs.Parse.Outcome
import ExprFront.Proofs.Parse.Derivation
/-!
# Every derivation is read back

A derivation of the grammar, followed by any tokens, is read by the grammar function of its
level, provided the token after it cannot continue that level. What "cannot continue" means is
the follow condition of each level:

* an operand of a binary level ends at any kind that is no operator of a strictly tighter level
  (`EndsOperand`);
* a condition ends at any kind that is neither `?` nor a binary operator (`EndsCondition`).

The loops of the comma and binary levels are left-recursive in the grammar, so their lemmas say
that reading the derivation hands the tree over to the loop (`Comma.comma_append`,
`Binary.binary_append`); the loop then stops at a token that is not its operator
(`commaTail_stop`, `binaryTail_stop`).

The nesting of a derivation decides the limit: within it the run succeeds, and past it the run
stops with a nesting error (`Comma.comma_fails`). The second half is what makes the nesting of
a sentence unique.
-/

namespace ExprFront

namespace Grammar

theorem BinaryLevel.eq_of_mem_operators {k : TokenKind} {l l' : BinaryLevel}
    (h : k ∈ l.operators) (h' : k ∈ l'.operators) : l = l' := by
  cases l <;> cases l' <;>
    simp only [BinaryLevel.operators, List.mem_cons, List.not_mem_nil, or_false] at h h' <;>
    first | rfl | (rcases h with rfl | rfl | rfl | rfl <;> simp at h')

/-- A kind that cannot continue an operand of `level`: no operator of a tighter level. -/
def EndsOperand (level : BinaryLevel) (k : TokenKind) : Prop :=
  ∀ l : BinaryLevel, k ∈ l.operators → level.rank ≤ l.rank

/-- A kind that cannot continue a condition: neither `?` nor a binary operator. -/
def EndsCondition (k : TokenKind) : Prop :=
  k ≠ .question ∧ ∀ l : BinaryLevel, k ∉ l.operators

theorem EndsCondition.endsOperand {k : TokenKind} (h : EndsCondition k) (level : BinaryLevel) :
    EndsOperand level k :=
  fun l hl => absurd hl (h.2 l)

theorem EndsOperand.not_mem {level l : BinaryLevel} {k : TokenKind} (h : EndsOperand level k)
    (hl : l.rank < level.rank) : k ∉ l.operators :=
  fun hk => absurd (h l hk) (by omega)

theorem EndsOperand.mono {level l : BinaryLevel} {k : TokenKind} (h : EndsOperand level k)
    (hl : l.rank ≤ level.rank) : EndsOperand l k :=
  fun l' hk => Nat.le_trans hl (h l' hk)

theorem endsOperand_of_mem {level : BinaryLevel} {k : TokenKind} (hk : k ∈ level.operators) :
    EndsOperand level k := by
  intro l hl
  obtain rfl := BinaryLevel.eq_of_mem_operators hk hl
  exact Nat.le_refl _

/-- The kinds that close something opened before a condition: `,`, `:`, `)` and the end. -/
theorem endsCondition_of_closing {k : TokenKind}
    (hk : k = .comma ∨ k = .colon ∨ k = .rightParen ∨ k = .eof) : EndsCondition k := by
  refine ⟨by rcases hk with rfl | rfl | rfl | rfl <;> decide, fun l => ?_⟩
  rcases hk with rfl | rfl | rfl | rfl <;> cases l <;> decide

theorem question_not_mem_operators (l : BinaryLevel) : TokenKind.question ∉ l.operators := by
  cases l <;> decide

theorem Env.Fits.max {π : Type} {env : Env π} {d a b : Nat} (ha : env.Fits d a)
    (hb : env.Fits d b) : env.Fits d (max a b) :=
  fun N hN => by have := ha N hN; have := hb N hN; omega

end Grammar

namespace Sentence

open Grammar

variable {π : Type} {env : Env π}

/-! ## Reading a derivation back -/

mutual

theorem Comma.comma_append {ts r : List (Token π)} {e : Expr π} {n d : Nat}
    (h : Comma ts e n) (hfit : env.Fits d n) (hr : EndsCondition (env.peek r).kind) :
    (comma env d (ts ++ r)).view = (commaTail env d e r).view :=
  match h with
  | .single ht => by
    rw [comma_view, ht.ternary_append hfit hr, andThen_ok]
  | @Comma.more _ _ us _ _ t _ _ hc hk ht => by
    -- the expression up to the last comma is handed to the loop, which reads one condition more
    have hcomma : EndsCondition (env.peek (t :: (us ++ r))).kind := by
      rw [Env.peek_cons]; exact endsCondition_of_closing (.inl hk)
    rw [List.append_assoc, List.cons_append,
      hc.comma_append (hfit.mono (Nat.le_max_left _ _)) hcomma, commaTail_comma env d _ hk,
      ht.ternary_append (hfit.mono (Nat.le_max_right _ _)) hr, andThen_ok]

theorem Ternary.ternary_append {ts r : List (Token π)} {e : Expr π} {n d : Nat}
    (h : Ternary ts e n) (hfit : env.Fits d n) (hr : EndsCondition (env.peek r).kind) :
    (ternary env d (ts ++ r)).view = (.ok e, r) :=
  match h with
  | .plain hb => by
    have hopen : env.blocks d = none := Env.blocks_eq_none_iff.2 (hfit.mono (by omega))
    have hread := hb.binary_append (Env.fits_succ.2 hfit) (hr.endsOperand _)
    rw [binaryTail_stop env (d + 1) _ _ (hr.2 _)] at hread
    exact ternary_plain env d hopen hread hr.1
  | @Ternary.cond _ ts us vs c _ _ q k _ _ _ hb hq hc hk ht => by
    have hopen : env.blocks d = none := Env.blocks_eq_none_iff.2 (hfit.mono (by omega))
    have hfit' := Env.fits_succ.2 hfit
    have hq' : EndsOperand .equality (env.peek (q :: (us ++ k :: (vs ++ r)))).kind := by
      rw [Env.peek_cons, hq]; exact fun l hl => absurd hl (question_not_mem_operators l)
    have hk' : EndsCondition (env.peek (k :: (vs ++ r))).kind := by
      rw [Env.peek_cons]; exact endsCondition_of_closing (.inr (.inl hk))
    -- the condition is read up to `?`, where its loop stops
    have hcond : (binary env (d + 1) .equality (ts ++ q :: (us ++ k :: (vs ++ r)))).view =
        (.ok c, q :: (us ++ k :: (vs ++ r))) := by
      rw [hb.binary_append (hfit'.mono (Nat.le_max_left _ _)) hq',
        binaryTail_stop env (d + 1) _ _ (by rw [Env.peek_cons, hq]; decide)]
    rw [List.append_assoc, List.cons_append, List.append_assoc, List.cons_append,
      ternary_question env d hopen hcond hq,
      hc.comma_append (hfit'.mono (by omega)) hk',
      commaTail_stop env (d + 1) _ (by rw [Env.peek_cons, hk]; decide), andThen_ok,
      expect_of_kind env hk (by decide), andThen_ok,
      ht.ternary_append (hfit'.mono (by omega)) hr, andThen_ok]

theorem Binary.binary_append {level : BinaryLevel} {ts r : List (Token π)} {e : Expr π}
    {n d : Nat} (h : Binary level ts e n) (hfit : env.Fits d n)
    (hr : EndsOperand level (env.peek r).kind) :
    (binary env d level (ts ++ r)).view = (binaryTail env d level e r).view :=
  match h with
  | .single ho => by
    rw [binary_view, ho.operand_append hfit hr, andThen_ok]
  | @Binary.more _ _ _ us _ _ t _ _ hb hk ho => by
    have hop : EndsOperand level (env.peek (t :: (us ++ r))).kind := by
      rw [Env.peek_cons]; exact endsOperand_of_mem hk
    rw [List.append_assoc, List.cons_append,
      hb.binary_append (hfit.mono (Nat.le_max_left _ _)) hop, binaryTail_operator env d level _ hk,
      ho.operand_append (hfit.mono (Nat.le_max_right _ _)) hr, andThen_ok]

theorem Operand.operand_append {level : BinaryLevel} {ts r : List (Token π)} {e : Expr π}
    {n d : Nat} (h : Operand level ts e n) (hfit : env.Fits d n)
    (hr : EndsOperand level (env.peek r).kind) :
    (operand env d level (ts ++ r)).view = (.ok e, r) :=
  match h with
  | .equality hb => by
    rw [operand_equality, hb.binary_append hfit (hr.mono (by decide)),
      binaryTail_stop env d _ _ (hr.not_mem (by decide))]
  | .comparison hb => by
    rw [operand_comparison, hb.binary_append hfit (hr.mono (by decide)),
      binaryTail_stop env d _ _ (hr.not_mem (by decide))]
  | .term hb => by
    rw [operand_term, hb.binary_append hfit (hr.mono (by decide)),
      binaryTail_stop env d _ _ (hr.not_mem (by decide))]
  | .factor hu => by
    rw [operand_factor, hu.unary_append hfit]

theorem Unary.unary_append {ts r : List (Token π)} {e : Expr π} {n d : Nat}
    (h : Unary ts e n) (hfit : env.Fits d n) : (unary env d (ts ++ r)).view = (.ok e, r) :=
  match h with
  | .op hp hu => by
    rw [List.cons_append, unary_operator env d hp, hu.unary_append hfit, andThen_ok]
  | .primary hp => by
    obtain ⟨t, rest, hts, ht⟩ := hp.exists_cons
    have hhead : ∀ t' rest', ts ++ r = t' :: rest' → isPrefixKind t'.kind = false := by
      intro t' rest' h'
      rw [hts, List.cons_append, List.cons.injEq] at h'
      rw [← h'.1]
      exact ht
    rw [unary_no_operator env d hhead, hp.primary_append hfit]

theorem Primary.primary_append {ts r : List (Token π)} {e : Expr π} {n d : Nat}
    (h : Primary ts e n) (hfit : env.Fits d n) : (primary env d (ts ++ r)).view = (.ok e, r) :=
  match h with
  | .literal hl => by
    rw [List.singleton_append, primary_literal env d hl]
  | @Primary.group _ _ _ _ c _ ho hc hk => by
    have hclose : EndsCondition (env.peek (c :: r)).kind := by
      rw [Env.peek_cons]; exact endsCondition_of_closing (.inr (.inr (.inl hk)))
    rw [List.cons_append, List.append_assoc, List.singleton_append,
      primary_group env d (by simp [ho, isLiteralKind]) ho, hc.comma_append hfit hclose,
      commaTail_stop env d _ (by rw [Env.peek_cons, hk]; decide), andThen_ok,
      expect_of_kind env hk (by decide), andThen_ok]

end

/-! ## A derivation nested past the limit fails -/

/-- The run stops at the nesting limit. -/
def FailsDeep {α : Type} (o : Except (ParseError π) α × List (Token π)) : Prop :=
  ∃ t N r, o = (.error (.nestingTooDeep t N), r)

theorem FailsDeep.andThen {α β : Type} {o : Except (ParseError π) α × List (Token π)}
    (h : FailsDeep o) (k : α → List (Token π) → Except (ParseError π) β × List (Token π)) :
    FailsDeep (Grammar.andThen o k) := by
  obtain ⟨t, N, r, rfl⟩ := h
  exact ⟨t, N, r, rfl⟩

/-! Past the nesting of a derivation the run stops at the limit, whichever part of it nests too
deep. Every run below a condition starts within the limit (`hd`), since only a condition opens a
level; a condition itself checks the limit before anything else. -/

mutual

theorem Comma.comma_fails {ts r : List (Token π)} {e : Expr π} {n d : Nat}
    (h : Comma ts e n) (hd : env.Fits d 0) (hfit : ¬ env.Fits d n)
    (hr : EndsCondition (env.peek r).kind) : FailsDeep (comma env d (ts ++ r)).view :=
  match h with
  | .single ht => by
    rw [comma_view]
    exact (ht.ternary_fails hfit hr).andThen _
  | @Comma.more _ _ us _ _ t n₀ m hc hk ht => by
    have hcomma : EndsCondition (env.peek (t :: (us ++ r))).kind := by
      rw [Env.peek_cons]; exact endsCondition_of_closing (.inl hk)
    rw [List.append_assoc, List.cons_append]
    by_cases h₀ : env.Fits d n₀
    · -- the last condition is the one nested too deep
      have hm : ¬ env.Fits d m := fun hm => hfit (h₀.max hm)
      rw [hc.comma_append h₀ hcomma, commaTail_comma env d _ hk]
      exact (ht.ternary_fails hm hr).andThen _
    · exact hc.comma_fails hd h₀ hcomma

theorem Ternary.ternary_fails {ts r : List (Token π)} {e : Expr π} {n d : Nat}
    (h : Ternary ts e n) (hfit : ¬ env.Fits d n)
    (hr : EndsCondition (env.peek r).kind) : FailsDeep (ternary env d (ts ++ r)).view := by
  cases hblock : env.blocks d with
  | some N => exact ⟨_, _, _, ternary_blocked env d hblock _⟩
  | none =>
    have hd' : env.Fits (d + 1) 0 := Env.fits_succ.2 (Env.blocks_eq_none_iff.1 hblock)
    match h with
    | .plain hb =>
      obtain ⟨t, N, r', hx⟩ := hb.binary_fails hd' (fun h' => hfit (Env.fits_succ.1 h'))
        (hr.endsOperand _)
      exact ⟨t, N, r', ternary_error env d hblock hx⟩
    | @Ternary.cond _ ts us vs c _ _ q k n₀ m p hb hq hc hk ht =>
      have hq' : EndsOperand .equality (env.peek (q :: (us ++ k :: (vs ++ r)))).kind := by
        rw [Env.peek_cons, hq]; exact fun l hl => absurd hl (question_not_mem_operators l)
      have hk' : EndsCondition (env.peek (k :: (vs ++ r))).kind := by
        rw [Env.peek_cons]; exact endsCondition_of_closing (.inr (.inl hk))
      have hfit' : ¬ env.Fits (d + 1) (max n₀ (max m p)) := fun h' => hfit (Env.fits_succ.1 h')
      rw [List.append_assoc, List.cons_append, List.append_assoc, List.cons_append]
      -- the condition, the then-branch or the else-branch nests too deep
      by_cases hb₀ : env.Fits (d + 1) n₀
      · have hcond : (binary env (d + 1) .equality (ts ++ q :: (us ++ k :: (vs ++ r)))).view =
            (.ok c, q :: (us ++ k :: (vs ++ r))) := by
          rw [hb.binary_append hb₀ hq',
            binaryTail_stop env (d + 1) _ _ (by rw [Env.peek_cons, hq]; decide)]
        rw [ternary_question env d hblock hcond hq]
        by_cases hc₀ : env.Fits (d + 1) m
        · have ht₀ : ¬ env.Fits (d + 1) p := fun ht₀ => hfit' (hb₀.max (hc₀.max ht₀))
          rw [hc.comma_append hc₀ hk',
            commaTail_stop env (d + 1) _ (by rw [Env.peek_cons, hk]; decide), andThen_ok,
            expect_of_kind env hk (by decide), andThen_ok]
          exact (ht.ternary_fails ht₀ hr).andThen _
        · exact (hc.comma_fails hd' hc₀ hk').andThen _
      · obtain ⟨t, N, r', hx⟩ := hb.binary_fails hd' hb₀ hq'
        exact ⟨t, N, r', ternary_error env d hblock hx⟩

theorem Binary.binary_fails {level : BinaryLevel} {ts r : List (Token π)} {e : Expr π}
    {n d : Nat} (h : Binary level ts e n) (hd : env.Fits d 0) (hfit : ¬ env.Fits d n)
    (hr : EndsOperand level (env.peek r).kind) :
    FailsDeep (binary env d level (ts ++ r)).view :=
  match h with
  | .single ho => by
    rw [binary_view]
    exact (ho.operand_fails hd hfit hr).andThen _
  | @Binary.more _ _ _ us _ _ t n₀ m hb hk ho => by
    have hop : EndsOperand level (env.peek (t :: (us ++ r))).kind := by
      rw [Env.peek_cons]; exact endsOperand_of_mem hk
    rw [List.append_assoc, List.cons_append]
    by_cases h₀ : env.Fits d n₀
    · have hm : ¬ env.Fits d m := fun hm => hfit (h₀.max hm)
      rw [hb.binary_append h₀ hop, binaryTail_operator env d level _ hk]
      exact (ho.operand_fails hd hm hr).andThen _
    · exact hb.binary_fails hd h₀ hop

theorem Operand.operand_fails {level : BinaryLevel} {ts r : List (Token π)} {e : Expr π}
    {n d : Nat} (h : Operand level ts e n) (hd : env.Fits d 0) (hfit : ¬ env.Fits d n)
    (hr : EndsOperand level (env.peek r).kind) :
    FailsDeep (operand env d level (ts ++ r)).view :=
  match h with
  | .equality hb => by
    rw [operand_equality]
    exact hb.binary_fails hd hfit (hr.mono (by decide))
  | .comparison hb => by
    rw [operand_comparison]
    exact hb.binary_fails hd hfit (hr.mono (by decide))
  | .term hb => by
    rw [operand_term]
    exact hb.binary_fails hd hfit (hr.mono (by decide))
  | .factor hu => by
    rw [operand_factor]
    exact hu.unary_fails hd hfit

theorem Unary.unary_fails {ts r : List (Token π)} {e : Expr π} {n d : Nat}
    (h : Unary ts e n) (hd : env.Fits d 0) (hfit : ¬ env.Fits d n) :
    FailsDeep (unary env d (ts ++ r)).view :=
  match h with
  | .op hp hu => by
    rw [List.cons_append, unary_operator env d hp]
    exact (hu.unary_fails hd hfit).andThen _
  | .primary hp => by
    obtain ⟨t, rest, hts, ht⟩ := hp.exists_cons
    have hhead : ∀ t' rest', ts ++ r = t' :: rest' → isPrefixKind t'.kind = false := by
      intro t' rest' h'
      rw [hts, List.cons_append, List.cons.injEq] at h'
      rw [← h'.1]
      exact ht
    rw [unary_no_operator env d hhead]
    exact hp.primary_fails hd hfit

theorem Primary.primary_fails {ts r : List (Token π)} {e : Expr π} {n d : Nat}
    (h : Primary ts e n) (hd : env.Fits d 0) (hfit : ¬ env.Fits d n) :
    FailsDeep (primary env d (ts ++ r)).view :=
  match h with
  | .literal _ => absurd hd hfit
  | @Primary.group _ _ _ _ c _ ho hc hk => by
    have hclose : EndsCondition (env.peek (c :: r)).kind := by
      rw [Env.peek_cons]; exact endsCondition_of_closing (.inr (.inr (.inl hk)))
    rw [List.cons_append, List.append_assoc, List.singleton_append,
      primary_group env d (by simp [ho, isLiteralKind]) ho]
    exact (hc.comma_fails hd hfit hclose).andThen _

end

/-! ## A whole parse -/

/-- A sentence followed by the end of input is parsed into its tree when it nests within the
limit, and stops at the limit otherwise. -/
theorem Comma.parseAll_append {ts r : List (Token π)} {e : Expr π} {n : Nat} (h : Comma ts e n)
    (hfit : env.Fits 0 n) (hr : (env.peek r).kind = .eof) :
    (parseAll env 0 (ts ++ r)).view = (.ok e, r) := by
  rw [parseAll_view, h.comma_append hfit (endsCondition_of_closing (.inr (.inr (.inr hr)))),
    commaTail_stop env 0 e (by rw [hr]; decide), andThen_ok, expect_view, if_pos hr]
  rfl

theorem Comma.parseAll_deep {ts r : List (Token π)} {e : Expr π} {n : Nat} (h : Comma ts e n)
    (hd : env.Fits 0 0) (hfit : ¬ env.Fits 0 n) (hr : (env.peek r).kind = .eof) :
    FailsDeep (parseAll env 0 (ts ++ r)).view := by
  rw [parseAll_view]
  exact (h.comma_fails hd hfit (endsCondition_of_closing (.inr (.inr (.inr hr))))).andThen _

end Sentence

end ExprFront
