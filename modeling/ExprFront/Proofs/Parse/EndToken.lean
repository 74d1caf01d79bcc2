import ExprFront.Proofs.Parse.Outcome
/-!
# The end token stands for the end of the list

Past the end of its list the parser sees the end token of its environment (`Env.atEnd`). Put
that very token after the list and no grammar function can tell: each gives the same result and
leaves the same tokens, now followed by that one (`padEnd`). The parser never takes a token of
the end kind, so the token put back is still there when a run stops.

Main statement (`parseAll_append_atEnd`), by the parser's own induction
(`Grammar.comma.mutual_induct`), each case from the branch lemmas of `Proofs/Parse/Outcome`.
-/

namespace ExprFront.Grammar

variable {π : Type}

/-- An outcome with a token put after the tokens it left. -/
def padEnd {α : Type} (E : Token π) (o : Except (ParseError π) α × List (Token π)) :
    Except (ParseError π) α × List (Token π) :=
  (o.1, o.2 ++ [E])

@[simp] theorem padEnd_mk {α : Type} (E : Token π) (res : Except (ParseError π) α)
    (r : List (Token π)) : padEnd E (res, r) = (res, r ++ [E]) := rfl

/-- A run continued after a padded first outcome is the padded run, when every continuation
is. -/
theorem andThen_padEnd {α β : Type} (E : Token π) {o : Except (ParseError π) α × List (Token π)}
    {k₁ k₂ : α → List (Token π) → Except (ParseError π) β × List (Token π)}
    (hk : ∀ a r, o = (.ok a, r) → k₂ a (r ++ [E]) = padEnd E (k₁ a r)) :
    andThen (padEnd E o) k₂ = padEnd E (andThen o k₁) := by
  obtain ⟨_ | a, r⟩ := o
  · rfl
  · exact hk a r rfl

theorem prefixRun_append_end {E : Token π} (hE : isPrefixKind E.kind = false)
    (ts : List (Token π)) :
    (prefixRun (ts ++ [E])).1 = (prefixRun ts).1 ∧
      (prefixRun (ts ++ [E])).2.1 = (prefixRun ts).2.1 ++ [E] := by
  induction ts with
  | nil => exact prefixRun_cons_other hE []
  | cons t rest ih =>
    cases ht : isPrefixKind t.kind with
    | true =>
      rw [List.cons_append, (prefixRun_cons_operator ht _).1, (prefixRun_cons_operator ht _).2,
        (prefixRun_cons_operator ht _).1, (prefixRun_cons_operator ht _).2, ih.1, ih.2]
      exact ⟨rfl, rfl⟩
    | false =>
      rw [List.cons_append, (prefixRun_cons_other ht _).1, (prefixRun_cons_other ht _).2,
        (prefixRun_cons_other ht _).1, (prefixRun_cons_other ht _).2]
      exact ⟨rfl, rfl⟩

variable (env : Env π)

@[simp] theorem peek_append_atEnd (ts : List (Token π)) :
    env.peek (ts ++ [env.atEnd]) = env.peek ts := by
  cases ts <;> rfl

section EndKind

variable {env} (hend : env.atEnd.kind = .eof)
include hend

theorem expect_append_atEnd (k : TokenKind) (ts : List (Token π)) :
    (expect env k (ts ++ [env.atEnd])).view = padEnd env.atEnd (expect env k ts).view := by
  rw [expect_view, expect_view, peek_append_atEnd]
  by_cases hk : (env.peek ts).kind = k
  · rw [if_pos hk, if_pos hk]
    by_cases he : k = .eof
    · simp [he]
    · -- only a real token has a kind other than the end's, and it is taken
      cases ts with
      | nil => exact absurd (hend.symm.trans hk) (Ne.symm he)
      | cons t rest => simp [he]
  · rw [if_neg hk, if_neg hk]
    rfl

theorem primary_nil_atEnd (d : Nat) :
    (primary env d [env.atEnd]).view = padEnd env.atEnd (primary env d []).view := by
  rw [primary_other env d (by rw [hend]; rfl) (by rw [hend]; decide), primary_nil]
  rfl

/-- Every grammar function run on its tokens followed by the end token gives what it gives on
the tokens alone, and leaves the end token after what it left. -/
theorem pads_all :
    (∀ d ts, (comma env d (ts ++ [env.atEnd])).view = padEnd env.atEnd (comma env d ts).view) ∧
    (∀ d lhs ts, (commaTail env d lhs (ts ++ [env.atEnd])).view =
      padEnd env.atEnd (commaTail env d lhs ts).view) ∧
    (∀ d ts, (ternary env d (ts ++ [env.atEnd])).view =
      padEnd env.atEnd (ternary env d ts).view) ∧
    (∀ d level ts, (binary env d level (ts ++ [env.atEnd])).view =
      padEnd env.atEnd (binary env d level ts).view) ∧
    (∀ d level lhs ts, (binaryTail env d level lhs (ts ++ [env.atEnd])).view =
      padEnd env.atEnd (binaryTail env d level lhs ts).view) ∧
    (∀ d level ts, (operand env d level (ts ++ [env.atEnd])).view =
      padEnd env.atEnd (operand env d level ts).view) ∧
    (∀ d ts, (unary env d (ts ++ [env.atEnd])).view = padEnd env.atEnd (unary env d ts).view) ∧
    (∀ d ts, (primary env d (ts ++ [env.atEnd])).view =
      padEnd env.atEnd (primary env d ts).view) := by
  have hstop : ∀ k, k ≠ TokenKind.eof → (env.peek [env.atEnd]).kind ≠ k := fun k hk => by
    rw [Env.peek_cons, hend]
    exact Ne.symm hk
  apply comma.mutual_induct env
  -- `comma`
  · intro d ts x r _ hT ihT
    rw [comma_view, comma_view, ihT]
    exact andThen_padEnd _ fun _ _ h => by cases (Parsed.view_of_eq hT).symm.trans h
  · intro d ts lhs r _ hT _ ihT ihTail
    rw [comma_view, comma_view, ihT]
    exact andThen_padEnd _ fun _ _ h => by cases (Parsed.view_of_eq hT).symm.trans h; exact ihTail
  -- `commaTail`
  · intro d lhs
    rw [List.nil_append, commaTail_stop env d lhs (hstop _ (by decide)), commaTail_nil]
    rfl
  · intro d lhs t rest hk x r _ hT ihT
    rw [List.cons_append, commaTail_comma env d lhs hk, commaTail_comma env d lhs hk, ihT]
    exact andThen_padEnd _ fun _ _ h => by cases (Parsed.view_of_eq hT).symm.trans h
  · intro d lhs t rest hk rhs r _ hT _ ihT ihTail
    rw [List.cons_append, commaTail_comma env d lhs hk, commaTail_comma env d lhs hk, ihT]
    exact andThen_padEnd _ fun _ _ h => by cases (Parsed.view_of_eq hT).symm.trans h; exact ihTail
  · intro d lhs t rest hk
    rw [List.cons_append, commaTail_stop env d lhs (by exact hk),
      commaTail_stop env d lhs (by exact hk)]
    rfl
  -- `ternary`: blocked, or one of the seven ways an open condition ends
  · intro d ts n hb
    rw [ternary_blocked env d hb, ternary_blocked env d hb, peek_append_atEnd]
    rfl
  · intro d ts h₁ x r _ hB ihB
    rw [ternary_error env d h₁ (by rw [ihB, Parsed.view_of_eq hB]; rfl),
      ternary_error env d h₁ (Parsed.view_of_eq hB)]
    rfl
  · intro d ts h₁ c _ hB ihB
    rw [ternary_not_question env d h₁ (by rw [ihB, Parsed.view_of_eq hB]; rfl)
      (by rw [hend]; decide), ternary_end env d h₁ (Parsed.view_of_eq hB)]
    rfl
  · intro d ts h₁ c q r1 _ hB hq _ _ x r _ hC ihB ihC
    have hB' : (binary env (d + 1) .equality (ts ++ [env.atEnd])).view =
        (.ok c, q :: (r1 ++ [env.atEnd])) := by rw [ihB, Parsed.view_of_eq hB]; rfl
    rw [ternary_question env d h₁ hB' hq, ternary_question env d h₁ (Parsed.view_of_eq hB) hq, ihC]
    exact andThen_padEnd _ fun _ _ h => by cases (Parsed.view_of_eq hC).symm.trans h
  · intro d ts h₁ c q r1 _ hB hq _ _ th r2 _ hC x r3 _ hE ihB ihC
    have hB' : (binary env (d + 1) .equality (ts ++ [env.atEnd])).view =
        (.ok c, q :: (r1 ++ [env.atEnd])) := by rw [ihB, Parsed.view_of_eq hB]; rfl
    rw [ternary_question env d h₁ hB' hq, ternary_question env d h₁ (Parsed.view_of_eq hB) hq, ihC]
    refine andThen_padEnd _ fun _ _ h => ?_
    cases (Parsed.view_of_eq hC).symm.trans h
    rw [expect_append_atEnd hend]
    exact andThen_padEnd _ fun _ _ h => by cases (Parsed.view_of_eq hE).symm.trans h
  · intro d ts h₁ c q r1 _ hB hq _ _ th r2 _ hC a r3 _ hE _ x r4 _ hT ihB ihC ihT
    have hB' : (binary env (d + 1) .equality (ts ++ [env.atEnd])).view =
        (.ok c, q :: (r1 ++ [env.atEnd])) := by rw [ihB, Parsed.view_of_eq hB]; rfl
    rw [ternary_question env d h₁ hB' hq, ternary_question env d h₁ (Parsed.view_of_eq hB) hq, ihC]
    refine andThen_padEnd _ fun _ _ h => ?_
    cases (Parsed.view_of_eq hC).symm.trans h
    rw [expect_append_atEnd hend]
    refine andThen_padEnd _ fun _ _ h => ?_
    cases (Parsed.view_of_eq hE).symm.trans h
    rw [ihT]
    exact andThen_padEnd _ fun _ _ h => by cases (Parsed.view_of_eq hT).symm.trans h
  · intro d ts h₁ c q r1 _ hB hq _ _ th r2 _ hC a r3 _ hE _ el r4 _ hT ihB ihC ihT
    have hB' : (binary env (d + 1) .equality (ts ++ [env.atEnd])).view =
        (.ok c, q :: (r1 ++ [env.atEnd])) := by rw [ihB, Parsed.view_of_eq hB]; rfl
    rw [ternary_question env d h₁ hB' hq, ternary_question env d h₁ (Parsed.view_of_eq hB) hq, ihC]
    refine andThen_padEnd _ fun _ _ h => ?_
    cases (Parsed.view_of_eq hC).symm.trans h
    rw [expect_append_atEnd hend]
    refine andThen_padEnd _ fun _ _ h => ?_
    cases (Parsed.view_of_eq hE).symm.trans h
    rw [ihT]
    exact andThen_padEnd _ fun _ _ _ => rfl
  · intro d ts h₁ c q r1 _ hB hq ihB
    rw [ternary_not_question env d h₁ (by rw [ihB, Parsed.view_of_eq hB]; rfl) hq,
      ternary_not_question env d h₁ (Parsed.view_of_eq hB) hq]
    rfl
  -- `binary`
  · intro d level ts x r _ hO ihO
    rw [binary_view, binary_view, ihO]
    exact andThen_padEnd _ fun _ _ h => by cases (Parsed.view_of_eq hO).symm.trans h
  · intro d level ts lhs r _ hO _ ihO ihTail
    rw [binary_view, binary_view, ihO]
    exact andThen_padEnd _ fun _ _ h => by cases (Parsed.view_of_eq hO).symm.trans h; exact ihTail
  -- `binaryTail`
  · intro d level lhs
    have hnot : (env.peek [env.atEnd]).kind ∉ level.operators := by
      rw [Env.peek_cons, hend]
      cases level <;> decide
    rw [List.nil_append, binaryTail_stop env d level lhs hnot, binaryTail_nil]
    rfl
  · intro d level lhs t rest hk x r _ hO ihO
    have hk' := List.contains_iff_mem.1 hk
    rw [List.cons_append, binaryTail_operator env d level lhs hk',
      binaryTail_operator env d level lhs hk', ihO]
    exact andThen_padEnd _ fun _ _ h => by cases (Parsed.view_of_eq hO).symm.trans h
  · intro d level lhs t rest hk rhs r _ hO _ ihO ihTail
    have hk' := List.contains_iff_mem.1 hk
    rw [List.cons_append, binaryTail_operator env d level lhs hk',
      binaryTail_operator env d level lhs hk', ihO]
    exact andThen_padEnd _ fun _ _ h => by cases (Parsed.view_of_eq hO).symm.trans h; exact ihTail
  · intro d level lhs t rest hk
    have hk' : t.kind ∉ level.operators := fun h => hk (List.contains_iff_mem.2 h)
    rw [List.cons_append, binaryTail_stop env d level lhs (by exact hk'),
      binaryTail_stop env d level lhs (by exact hk')]
    rfl
  -- `operand`
  · intro d ts ih
    simpa only [operand_equality] using ih
  · intro d ts ih
    simpa only [operand_comparison] using ih
  · intro d ts ih
    simpa only [operand_term] using ih
  · intro d ts ih
    simpa only [operand_factor] using ih
  -- `unary`: the end token stops the run of operators, and the primary sees it
  · intro d ts ops r _ hpre _ x r₁ _ hP ihP
    have hrun := prefixRun_append_end (show isPrefixKind env.atEnd.kind = false by rw [hend]; rfl) ts
    rw [hpre] at hrun
    rw [unary_view, unary_view, hrun.1, hrun.2, hpre]
    dsimp only
    rw [ihP]
    exact andThen_padEnd _ fun _ _ _ => rfl
  · intro d ts ops r _ hpre _ e r₁ _ hP ihP
    have hrun := prefixRun_append_end (show isPrefixKind env.atEnd.kind = false by rw [hend]; rfl) ts
    rw [hpre] at hrun
    rw [unary_view, unary_view, hrun.1, hrun.2, hpre]
    dsimp only
    rw [ihP]
    exact andThen_padEnd _ fun _ _ _ => rfl
  -- `primary`
  · intro d
    exact primary_nil_atEnd hend d
  · intro d t rest ht
    rw [List.cons_append, primary_literal env d ht, primary_literal env d ht]
    rfl
  · intro d t rest hl hp x r _ hC ihC
    have hl' : isLiteralKind t.kind = false := by simpa using hl
    rw [List.cons_append, primary_group env d hl' hp, primary_group env d hl' hp, ihC]
    exact andThen_padEnd _ fun _ _ h => by cases (Parsed.view_of_eq hC).symm.trans h
  · intro d t rest hl hp inner r _ hC x r₃ _ hE ihC
    have hl' : isLiteralKind t.kind = false := by simpa using hl
    rw [List.cons_append, primary_group env d hl' hp, primary_group env d hl' hp, ihC]
    refine andThen_padEnd _ fun _ _ h => ?_
    cases (Parsed.view_of_eq hC).symm.trans h
    rw [expect_append_atEnd hend]
    exact andThen_padEnd _ fun _ _ h => by cases (Parsed.view_of_eq hE).symm.trans h
  · intro d t rest hl hp inner r _ hC a r₃ _ hE ihC
    have hl' : isLiteralKind t.kind = false := by simpa using hl
    rw [List.cons_append, primary_group env d hl' hp, primary_group env d hl' hp, ihC]
    refine andThen_padEnd _ fun _ _ h => ?_
    cases (Parsed.view_of_eq hC).symm.trans h
    rw [expect_append_atEnd hend]
    exact andThen_padEnd _ fun _ _ _ => rfl
  · intro d t rest hl hp
    have hl' : isLiteralKind t.kind = false := by simpa using hl
    rw [List.cons_append, primary_other env d hl' hp, primary_other env d hl' hp]
    rfl

/-- A whole parse of tokens followed by the end token gives what the parse of the tokens gives,
leaving the end token after what it left. -/
theorem parseAll_append_atEnd (d : Nat) (ts : List (Token π)) :
    (parseAll env d (ts ++ [env.atEnd])).view = padEnd env.atEnd (parseAll env d ts).view := by
  rw [parseAll_view, parseAll_view, (pads_all hend).1]
  refine andThen_padEnd _ fun _ r _ => ?_
  rw [expect_append_atEnd hend]
  exact andThen_padEnd _ fun _ _ _ => rfl

end EndKind

end ExprFront.Grammar
