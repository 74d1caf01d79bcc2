import ExprFront.Proofs.Parse.Outcome
/-!
# The parser looks one token ahead

A run of a grammar function decides on the tokens it reads and on the one token after them,
and on nothing further: replace what comes after that token and the run gives the same result,
leaving the replaced tokens. Nor does it depend on the nesting limit unless it stops there: a
run that ends in anything but a nesting error ends the same way under a larger limit.

`Agrees o run ts` says this of an outcome `o` on `ts` and a second run `run`. A few rules say how
agreement is built: a run that stops at a token (`Agrees.peek`), one that takes it
(`Agrees.cons`), and one run after another (`Agrees.andThen`). From them, the eight grammar
functions agree by the parser's own induction (`agrees_all`).

Main statement (`parseAll_eq_of_lookahead`): a whole parse that stops before `w ++ u`, with `w`
not empty, stops before `w ++ v` with the same result, for every `v` and every larger limit.
-/

namespace ExprFront.Grammar

variable {π : Type}

/-- A result that is no nesting error. -/
def Shallow {α : Type} (res : Except (ParseError π) α) : Prop :=
  ∀ x, res = .error x → x.kindName ≠ "NESTING_TOO_DEEP"

theorem shallow_ok {α : Type} (a : α) : Shallow (.ok a : Except (ParseError π) α) :=
  fun _ h => by cases h

theorem exists_split_of_suffix {α : Type} {c w u r : List α} (h₁ : w ++ u <:+ r)
    (h₂ : r <:+ c ++ (w ++ u)) : ∃ c₁ c₂, c = c₁ ++ c₂ ∧ r = c₂ ++ (w ++ u) := by
  obtain ⟨c₂, rfl⟩ := h₁
  obtain ⟨c₁, h⟩ := h₂
  rw [← List.append_assoc] at h
  exact ⟨c₁, c₂, (List.append_cancel_right h).symm, rfl⟩

/-- The outcome `o` of a run on `ts` is repeated by `run` on any tokens that agree with `ts` up
to the token after what was read: when `o` leaves `w ++ u` with `w` not empty and is no nesting
error, `run` on the same tokens with `v` for `u` gives the same result and leaves `w ++ v`. -/
structure Agrees {α : Type} (o : Except (ParseError π) α × List (Token π))
    (run : List (Token π) → Except (ParseError π) α × List (Token π)) (ts : List (Token π)) :
    Prop where
  suffix : o.2 <:+ ts
  agree : ∀ c w u, ts = c ++ (w ++ u) → w ≠ [] → ∀ res, o = (res, w ++ u) → Shallow res →
    ∀ v, run (c ++ (w ++ v)) = (res, w ++ v)

namespace Agrees

variable {α β : Type} {res : Except (ParseError π) α}
  {o : Except (ParseError π) α × List (Token π)}
  {run run' : List (Token π) → Except (ParseError π) α × List (Token π)} {ts : List (Token π)}

theorem nil (h : o.2 = []) : Agrees o run [] where
  suffix := h ▸ List.suffix_refl []
  agree _ _ _ hts hw := absurd (List.append_eq_nil_iff.1 (List.nil_eq_append_iff.1 hts).2).1 hw

theorem deep (t : Token π) (N : Nat) : Agrees (.error (.nestingTooDeep t N), ts) run ts where
  suffix := List.suffix_refl ts
  agree _ _ _ _ _ _ ho hs := absurd rfl (hs _ (Prod.mk.inj ho).1.symm)

/-- A run that gives `res` where it starts reads nothing. -/
theorem rest (res : Except (ParseError π) α) (ts : List (Token π)) :
    Agrees (res, ts) (fun v => (res, v)) ts where
  suffix := List.suffix_refl ts
  agree c w u hts _ res' ho _ v := by
    obtain ⟨rfl, rfl⟩ := Prod.mk.inj ho
    rw [List.append_left_eq_self.1 hts.symm, List.nil_append]

/-- A run that looks at the next token `t` and stays before it. -/
theorem peek {t : Token π} {rest : List (Token π)} (h : ∀ v, run (t :: v) = (res, t :: v)) :
    Agrees (res, t :: rest) run (t :: rest) where
  suffix := List.suffix_refl _
  agree c w u hts hw res' ho _ v := by
    obtain ⟨rfl, hwu⟩ := Prod.mk.inj ho
    rw [hwu] at hts
    have hc := List.append_left_eq_self.1 hts.symm
    obtain ⟨t', w', rfl⟩ := List.exists_cons_of_ne_nil hw
    rw [List.cons_append, List.cons.injEq] at hwu
    rw [hc, List.nil_append, List.cons_append, ← hwu.1]
    exact h _

/-- A run that takes the next token `t` first. -/
theorem cons (t : Token π) (h : Agrees o (fun v => run (t :: v)) ts) :
    Agrees o run (t :: ts) where
  suffix := h.suffix.trans (List.suffix_cons t ts)
  agree c w u hts hw res ho hs v := by
    cases c with
    | nil =>
      -- reading nothing would leave more than the tokens after `t`
      have hlen : (w ++ u).length ≤ ts.length := by simpa [ho] using h.suffix.length_le
      rw [List.nil_append] at hts
      rw [← hts, List.length_cons] at hlen
      omega
    | cons t' c =>
      rw [List.cons_append, List.cons.injEq] at hts
      obtain ⟨rfl, hts⟩ := hts
      exact h.agree c w u hts hw res ho hs v

/-- A second run that differs only on tokens that do not start like `ts`. -/
theorem congr_head (h : Agrees o run ts)
    (hrun : ∀ t r v, ts = t :: r → run' (t :: v) = run (t :: v)) : Agrees o run' ts where
  suffix := h.suffix
  agree c w u hts hw res ho hs v := by
    have := h.agree c w u hts hw res ho hs v
    obtain ⟨t, w', rfl⟩ := List.exists_cons_of_ne_nil hw
    cases c with
    | nil =>
      rw [List.nil_append, List.cons_append] at hts this ⊢
      rw [hrun t _ _ hts]
      exact this
    | cons t₀ c =>
      rw [List.cons_append] at hts this ⊢
      rw [hrun t₀ _ _ hts]
      exact this

/-- One run after another: a run that agrees, continued from where it left by runs that
agree. -/
theorem andThen {k₁ k₂ : α → List (Token π) → Except (ParseError π) β × List (Token π)}
    (h : Agrees o run ts) (hk : ∀ a r, o = (.ok a, r) → Agrees (k₁ a r) (k₂ a) r) :
    Agrees (Grammar.andThen o k₁) (fun v => Grammar.andThen (run v) k₂) ts := by
  obtain ⟨_ | a, r⟩ := o
  · refine ⟨h.suffix, fun c w u hts hw res ho hs v => ?_⟩
    rw [andThen_error] at ho
    obtain ⟨rfl, rfl⟩ := Prod.mk.inj ho
    rw [h.agree c w u hts hw _ rfl (fun y hy => hs y (by cases hy; rfl)) v]
    rfl
  · have hk' := hk a r rfl
    refine ⟨hk'.suffix.trans h.suffix, fun c w u hts hw res ho hs v => ?_⟩
    rw [andThen_ok] at ho
    -- the first run stopped inside `c`, at `c₂ ++ w ++ u`
    have hs₁ : w ++ u <:+ r := by simpa [ho] using hk'.suffix
    have hs₂ : r <:+ c ++ (w ++ u) := hts ▸ h.suffix
    obtain ⟨c₁, c₂, rfl, rfl⟩ := exists_split_of_suffix hs₁ hs₂
    have h₁ := h.agree c₁ (c₂ ++ w) u (by rw [hts]; simp) (by simp [hw]) (.ok a) (by simp)
      (shallow_ok a) v
    have hv : c₁ ++ c₂ ++ (w ++ v) = c₁ ++ (c₂ ++ w ++ v) := by simp
    rw [hv, h₁, andThen_ok, List.append_assoc]
    exact hk'.agree c₂ w u rfl hw res ho hs v

end Agrees

variable (env₁ env₂ : Env π)

theorem agrees_expect (k : TokenKind) (ts : List (Token π)) :
    Agrees (expect env₁ k ts).view (fun v => (expect env₂ k v).view) ts := by
  cases ts with
  | nil => exact Agrees.nil (by rw [expect_view]; split <;> simp)
  | cons t rest =>
    by_cases hk : t.kind = k
    · by_cases he : k = .eof
      · -- the end of input is seen but not taken
        have hstay : ∀ ts', (expect env₁ k (t :: ts')).view = (.ok t, t :: ts') ∧
            (expect env₂ k (t :: ts')).view = (.ok t, t :: ts') := fun ts' => by
          simp [expect_view, hk, he]
        rw [(hstay rest).1]
        exact Agrees.peek fun v => (hstay v).2
      · rw [expect_of_kind env₁ hk he]
        refine Agrees.cons t ?_
        simp only [expect_of_kind env₂ hk he]
        exact Agrees.rest _ rest
    · rw [expect_of_not_kind env₁ (show (env₁.peek (t :: rest)).kind ≠ k from hk)]
      exact Agrees.peek fun v =>
        expect_of_not_kind env₂ (show (env₂.peek (t :: v)).kind ≠ k from hk)

/-! ## Agreement of each grammar function from that of its parts -/

variable {env₁ env₂}

/-- A condition agrees when its binary expression does and, after a `?`, its then-branch and
else-branch do. -/
theorem agrees_ternary {d : Nat} {ts : List (Token π)} (h₁ : env₁.blocks d = none)
    (h₂ : env₂.blocks d = none)
    (hB : Agrees (binary env₁ (d + 1) .equality ts).view
      (fun v => (binary env₂ (d + 1) .equality v).view) ts)
    (hC : ∀ c q r1, (binary env₁ (d + 1) .equality ts).view = (.ok c, q :: r1) →
      q.kind = .question →
      Agrees (comma env₁ (d + 1) r1).view (fun v => (comma env₂ (d + 1) v).view) r1)
    (hT : ∀ c q r1 th r2 a r3, (binary env₁ (d + 1) .equality ts).view = (.ok c, q :: r1) →
      q.kind = .question → (comma env₁ (d + 1) r1).view = (.ok th, r2) →
      (expect env₁ .colon r2).view = (.ok a, r3) →
      Agrees (ternary env₁ (d + 1) r3).view (fun v => (ternary env₂ (d + 1) v).view) r3) :
    Agrees (ternary env₁ d ts).view (fun v => (ternary env₂ d v).view) ts := by
  rw [ternary_open env₁ d h₁]
  simp only [ternary_open env₂ d h₂]
  refine hB.andThen fun c r hc => ?_
  cases r with
  | nil => exact Agrees.nil rfl
  | cons q r1 =>
    by_cases hq : q.kind = .question
    · refine Agrees.cons q ?_
      simp only [if_pos hq]
      refine (hC c q r1 hc hq).andThen fun th r2 hth => ?_
      refine (agrees_expect env₁ env₂ .colon r2).andThen fun a r3 ha => ?_
      exact (hT c q r1 th r2 a r3 hc hq hth ha).andThen fun _ _ _ => Agrees.rest _ _
    · simp only [if_neg hq]
      exact Agrees.peek fun v => by simp only [if_neg hq]

/-- A prefix expression agrees when the primary after its operators does. -/
theorem agrees_unary {d : Nat} (ops : List (Token π)) {r : List (Token π)}
    (hops : ∀ t ∈ ops, isPrefixKind t.kind = true)
    (hr : ∀ t r', r = t :: r' → isPrefixKind t.kind = false)
    (hP : Agrees (primary env₁ d r).view (fun v => (primary env₂ d v).view) r) :
    Agrees (unary env₁ d (ops ++ r)).view (fun v => (unary env₂ d v).view) (ops ++ r) := by
  induction ops with
  | nil =>
    rw [List.nil_append, unary_no_operator env₁ d hr]
    exact hP.congr_head fun t r' v hts => unary_no_operator env₂ d fun t' v' h =>
      (List.cons.inj h).1 ▸ hr t r' hts
  | cons op ops ih =>
    have hop := hops op List.mem_cons_self
    rw [List.cons_append, unary_operator env₁ d hop]
    refine Agrees.cons op ?_
    simp only [unary_operator env₂ d hop]
    exact (ih fun t ht => hops t (List.mem_cons_of_mem op ht)).andThen
      fun _ _ _ => Agrees.rest _ _

/-- A parenthesised expression agrees when the expression inside does. -/
theorem agrees_group {d : Nat} {t : Token π} {rest : List (Token π)}
    (hl : isLiteralKind t.kind = false) (hp : t.kind = .leftParen)
    (hC : Agrees (comma env₁ d rest).view (fun v => (comma env₂ d v).view) rest) :
    Agrees (primary env₁ d (t :: rest)).view (fun v => (primary env₂ d v).view) (t :: rest) := by
  rw [primary_group env₁ d hl hp]
  refine Agrees.cons t ?_
  simp only [primary_group env₂ d hl hp]
  exact hC.andThen fun _ r _ =>
    (agrees_expect env₁ env₂ .rightParen r).andThen fun _ _ _ => Agrees.rest _ _

/-! ## Every run agrees -/

variable (env₁ env₂)

/-- Under a limit at least as large, every grammar function agrees with itself, by the parser's
own induction: each case puts together the agreement of the calls it makes. -/
theorem agrees_all (hopen : ∀ d, env₁.blocks d = none → env₂.blocks d = none) :
    (∀ d ts, Agrees (comma env₁ d ts).view (fun v => (comma env₂ d v).view) ts) ∧
    (∀ d lhs ts, Agrees (commaTail env₁ d lhs ts).view
      (fun v => (commaTail env₂ d lhs v).view) ts) ∧
    (∀ d ts, Agrees (ternary env₁ d ts).view (fun v => (ternary env₂ d v).view) ts) ∧
    (∀ d level ts, Agrees (binary env₁ d level ts).view
      (fun v => (binary env₂ d level v).view) ts) ∧
    (∀ d level lhs ts, Agrees (binaryTail env₁ d level lhs ts).view
      (fun v => (binaryTail env₂ d level lhs v).view) ts) ∧
    (∀ d level ts, Agrees (operand env₁ d level ts).view
      (fun v => (operand env₂ d level v).view) ts) ∧
    (∀ d ts, Agrees (unary env₁ d ts).view (fun v => (unary env₂ d v).view) ts) ∧
    (∀ d ts, Agrees (primary env₁ d ts).view (fun v => (primary env₂ d v).view) ts) := by
  apply comma.mutual_induct env₁
  -- `comma`
  · intro d ts x r _ hT ihT
    simp only [comma_view]
    exact ihT.andThen fun _ _ h => by cases (Parsed.view_of_eq hT).symm.trans h
  · intro d ts lhs r _ hT _ ihT ihTail
    simp only [comma_view]
    exact ihT.andThen fun _ _ h => by cases (Parsed.view_of_eq hT).symm.trans h; exact ihTail
  -- `commaTail`
  · intro d lhs
    exact Agrees.nil (by rw [commaTail_nil])
  · intro d lhs t rest hk x r _ hT ihT
    rw [commaTail_comma env₁ d lhs hk]
    refine Agrees.cons t ?_
    simp only [commaTail_comma env₂ d lhs hk]
    exact ihT.andThen fun _ _ h => by cases (Parsed.view_of_eq hT).symm.trans h
  · intro d lhs t rest hk rhs r _ hT _ ihT ihTail
    rw [commaTail_comma env₁ d lhs hk]
    refine Agrees.cons t ?_
    simp only [commaTail_comma env₂ d lhs hk]
    exact ihT.andThen fun _ _ h => by cases (Parsed.view_of_eq hT).symm.trans h; exact ihTail
  · intro d lhs t rest hk
    rw [commaTail_stop env₁ d lhs (by rwa [Env.peek_cons])]
    exact Agrees.peek fun v => commaTail_stop env₂ d lhs (by rwa [Env.peek_cons])
  -- `ternary`: blocked at the limit, then the seven ways an open condition ends
  · intro d ts n hb
    rw [ternary_blocked env₁ d hb]
    exact Agrees.deep _ _
  · intro d ts h₁ x r _ hB ihB
    refine agrees_ternary h₁ (hopen d h₁) ihB ?_ ?_
    · exact fun _ _ _ h => by cases (Parsed.view_of_eq hB).symm.trans h
    · exact fun _ _ _ _ _ _ _ h => by cases (Parsed.view_of_eq hB).symm.trans h
  · intro d ts h₁ c _ hB ihB
    refine agrees_ternary h₁ (hopen d h₁) ihB ?_ ?_
    · exact fun _ _ _ h => by cases (Parsed.view_of_eq hB).symm.trans h
    · exact fun _ _ _ _ _ _ _ h => by cases (Parsed.view_of_eq hB).symm.trans h
  · intro d ts h₁ c q r1 _ hB hq _ _ x r _ hC ihB ihC
    refine agrees_ternary h₁ (hopen d h₁) ihB ?_ ?_
    · exact fun _ _ _ h _ => by cases (Parsed.view_of_eq hB).symm.trans h; exact ihC
    · exact fun _ _ _ _ _ _ _ h _ hc => by
        cases (Parsed.view_of_eq hB).symm.trans h
        cases (Parsed.view_of_eq hC).symm.trans hc
  · intro d ts h₁ c q r1 _ hB hq _ _ th r2 _ hC x r3 _ hE ihB ihC
    refine agrees_ternary h₁ (hopen d h₁) ihB ?_ ?_
    · exact fun _ _ _ h _ => by cases (Parsed.view_of_eq hB).symm.trans h; exact ihC
    · exact fun _ _ _ _ _ _ _ h _ hc he => by
        cases (Parsed.view_of_eq hB).symm.trans h
        cases (Parsed.view_of_eq hC).symm.trans hc
        cases (Parsed.view_of_eq hE).symm.trans he
  · intro d ts h₁ c q r1 _ hB hq _ _ th r2 _ hC a r3 _ hE _ x r4 _ hT ihB ihC ihT
    refine agrees_ternary h₁ (hopen d h₁) ihB ?_ ?_
    · exact fun _ _ _ h _ => by cases (Parsed.view_of_eq hB).symm.trans h; exact ihC
    · exact fun _ _ _ _ _ _ _ h _ hc he => by
        cases (Parsed.view_of_eq hB).symm.trans h
        cases (Parsed.view_of_eq hC).symm.trans hc
        cases (Parsed.view_of_eq hE).symm.trans he
        exact ihT
  · intro d ts h₁ c q r1 _ hB hq _ _ th r2 _ hC a r3 _ hE _ el r4 _ hT ihB ihC ihT
    refine agrees_ternary h₁ (hopen d h₁) ihB ?_ ?_
    · exact fun _ _ _ h _ => by cases (Parsed.view_of_eq hB).symm.trans h; exact ihC
    · exact fun _ _ _ _ _ _ _ h _ hc he => by
        cases (Parsed.view_of_eq hB).symm.trans h
        cases (Parsed.view_of_eq hC).symm.trans hc
        cases (Parsed.view_of_eq hE).symm.trans he
        exact ihT
  · intro d ts h₁ c q r1 _ hB hq ihB
    refine agrees_ternary h₁ (hopen d h₁) ihB ?_ ?_
    · exact fun _ _ _ h hq' => by cases (Parsed.view_of_eq hB).symm.trans h; exact absurd hq' hq
    · exact fun _ _ _ _ _ _ _ h hq' => by
        cases (Parsed.view_of_eq hB).symm.trans h; exact absurd hq' hq
  -- `binary`
  · intro d level ts x r _ hO ihO
    simp only [binary_view]
    exact ihO.andThen fun _ _ h => by cases (Parsed.view_of_eq hO).symm.trans h
  · intro d level ts lhs r _ hO _ ihO ihTail
    simp only [binary_view]
    exact ihO.andThen fun _ _ h => by cases (Parsed.view_of_eq hO).symm.trans h; exact ihTail
  -- `binaryTail`
  · intro d level lhs
    exact Agrees.nil (by rw [binaryTail_nil])
  · intro d level lhs t rest hk x r _ hO ihO
    have hk' := List.contains_iff_mem.1 hk
    rw [binaryTail_operator env₁ d level lhs hk']
    refine Agrees.cons t ?_
    simp only [binaryTail_operator env₂ d level lhs hk']
    exact ihO.andThen fun _ _ h => by cases (Parsed.view_of_eq hO).symm.trans h
  · intro d level lhs t rest hk rhs r _ hO _ ihO ihTail
    have hk' := List.contains_iff_mem.1 hk
    rw [binaryTail_operator env₁ d level lhs hk']
    refine Agrees.cons t ?_
    simp only [binaryTail_operator env₂ d level lhs hk']
    exact ihO.andThen fun _ _ h => by cases (Parsed.view_of_eq hO).symm.trans h; exact ihTail
  · intro d level lhs t rest hk
    have hk' : t.kind ∉ level.operators := fun h => hk (List.contains_iff_mem.2 h)
    rw [binaryTail_stop env₁ d level lhs (by rwa [Env.peek_cons])]
    exact Agrees.peek fun v => binaryTail_stop env₂ d level lhs (by rwa [Env.peek_cons])
  -- `operand`
  · intro d ts ih
    simpa only [operand_equality] using ih
  · intro d ts ih
    simpa only [operand_comparison] using ih
  · intro d ts ih
    simpa only [operand_term] using ih
  · intro d ts ih
    simpa only [operand_factor] using ih
  -- `unary`: whatever the primary gives
  · intro d ts ops r _ hpre _ x r₁ _ hP ihP
    obtain ⟨hsplit, hops⟩ := prefixRun_spec ts
    rw [hpre] at hsplit hops
    rw [← hsplit]
    exact agrees_unary ops hops (fun t r' h => prefixRun_stops ts (by rw [hpre]; exact h)) ihP
  · intro d ts ops r _ hpre _ e r₁ _ hP ihP
    obtain ⟨hsplit, hops⟩ := prefixRun_spec ts
    rw [hpre] at hsplit hops
    rw [← hsplit]
    exact agrees_unary ops hops (fun t r' h => prefixRun_stops ts (by rw [hpre]; exact h)) ihP
  -- `primary`
  · intro d
    exact Agrees.nil (by rw [primary_nil])
  · intro d t rest ht
    rw [primary_literal env₁ d ht]
    refine Agrees.cons t ?_
    simp only [primary_literal env₂ d ht]
    exact Agrees.rest _ _
  · intro d t rest hl hp x r _ hC ihC
    exact agrees_group (by simpa using hl) hp ihC
  · intro d t rest hl hp inner r _ hC x r₃ _ hE ihC
    exact agrees_group (by simpa using hl) hp ihC
  · intro d t rest hl hp inner r _ hC a r₃ _ hE ihC
    exact agrees_group (by simpa using hl) hp ihC
  · intro d t rest hl hp
    rw [primary_other env₁ d (by simpa using hl) hp]
    exact Agrees.peek fun v => primary_other env₂ d (by simpa using hl) hp v

theorem agrees_parseAll (hopen : ∀ d, env₁.blocks d = none → env₂.blocks d = none)
    (d : Nat) (ts : List (Token π)) :
    Agrees (parseAll env₁ d ts).view (fun v => (parseAll env₂ d v).view) ts := by
  simp only [parseAll_view]
  exact ((agrees_all env₁ env₂ hopen).1 d ts).andThen fun _ r _ =>
    (agrees_expect env₁ env₂ .eof r).andThen fun _ _ _ => Agrees.rest _ _

/-- A whole parse that stops before `w ++ u`, with `w` not empty and no nesting error, stops
before `w ++ v` with the same result, for any `v` and any limit at least as large. -/
theorem parseAll_eq_of_lookahead (hopen : ∀ d, env₁.blocks d = none → env₂.blocks d = none)
    {d : Nat} {c w u v : List (Token π)} {res : Except (ParseError π) (Expr π)} (hw : w ≠ [])
    (h : (parseAll env₁ d (c ++ (w ++ u))).view = (res, w ++ u)) (hres : Shallow res) :
    (parseAll env₂ d (c ++ (w ++ v))).view = (res, w ++ v) :=
  (agrees_parseAll env₁ env₂ hopen d _).agree c w u rfl hw res h hres v

end ExprFront.Grammar
