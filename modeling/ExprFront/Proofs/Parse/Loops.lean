import ExprFront.Proofs.Parse.Calls
/-!
# The loops read what the recursive rules describe

Three grammar levels read a repetition with a loop rather than by recursion. The prefix level
collects its run of `-` and `!` first and applies them from the innermost out; the comma level
and each binary level read an operand, then, while the next token is one of their operators,
that operator and another operand, folding to the left as they go.

A run of prefix operators gives the tree the right-recursive rule `unary := op unary | primary`
gives (`unary_eq_unaryRight`), the first operator outermost and each node spanning from its
operator to the end of the primary. A loop level gives the left fold of the operands it read
over the longest run of operands joined by its operators (`SepRun`, `loop_eq_ok_iff`), its
seed the first operand and each later step an operator with the operand after it.

Main statement (`loops_read_rules`).
-/

namespace ExprFront.Grammar

variable {π : Type}

/-! ## Prefix operators -/

/-- The right-recursive reading of prefix expressions: an operator before a prefix expression,
or a primary. -/
def unaryRight (env : Env π) (d : Nat) :
    List (Token π) → Except (ParseError π) (Expr π) × List (Token π)
  | [] => (primary env d []).view
  | t :: rest =>
    if isPrefixKind t.kind then andThen (unaryRight env d rest) fun e r => (.ok (.unary t e), r)
    else (primary env d (t :: rest)).view

theorem unary_eq_unaryRight (env : Env π) (d : Nat) (ts : List (Token π)) :
    (unary env d ts).view = unaryRight env d ts := by
  induction ts with
  | nil => exact unary_no_operator env d (by simp)
  | cons t rest ih =>
    cases ht : isPrefixKind t.kind with
    | true => rw [unary_operator env d ht, ih, unaryRight, if_pos ht]
    | false =>
      rw [unary_no_operator env d (by simpa using ht), unaryRight, if_neg (by simp [ht])]

@[simp] theorem span_stop_foldr_unary (ops : List (Token π)) (p : Expr π) :
    (ops.foldr .unary p).span.stop = p.span.stop := by
  induction ops with
  | nil => rfl
  | cons o ops ih => simpa [Expr.span] using ih

/-- The `i`-th operator of a run spans from itself to the end of the primary. -/
theorem span_foldr_unary_drop (ops : List (Token π)) (p : Expr π) (i : Nat) (h : i < ops.length) :
    ((ops.drop i).foldr .unary p).span = ⟨ops[i].start, p.span.stop⟩ := by
  rw [List.drop_eq_getElem_cons h, List.foldr_cons, Expr.span, span_stop_foldr_unary]

theorem isPrefixKind_iff (k : TokenKind) : isPrefixKind k = true ↔ k = .minus ∨ k = .bang := by
  simp [isPrefixKind]

/-! ## Loops over separated operands -/

/-- `SepRun p sep ts steps r`: from `ts`, while the next token is a separator (`sep`), read it
and an operand with `p`; the pairs read are `steps`, and the reading stops at `r`, which does
not start with a separator. -/
inductive SepRun (p : List (Token π) → Except (ParseError π) (Expr π) × List (Token π))
    (sep : Token π → Prop) : List (Token π) → List (Token π × Expr π) → List (Token π) → Prop
  | stop {ts : List (Token π)} : (∀ t rest, ts = t :: rest → ¬ sep t) → SepRun p sep ts [] ts
  | more {t : Token π} {rest r r' : List (Token π)} {x : Expr π} {steps : List (Token π × Expr π)} :
      sep t → p rest = (.ok x, r) → SepRun p sep r steps r' →
        SepRun p sep (t :: rest) ((t, x) :: steps) r'

/-- The left fold of a seed over operator and operand pairs. -/
def foldSteps (x : Expr π) (steps : List (Token π × Expr π)) : Expr π :=
  steps.foldl (fun acc s => .binary acc s.1 s.2) x

section Loop

variable {p : List (Token π) → Except (ParseError π) (Expr π) × List (Token π)}
  {sep : Token π → Prop}
  {L : Expr π → (ts : List (Token π)) → Except (ParseError π) (Expr π) × List (Token π)}

/-- A loop that stops before any token that is no separator, and otherwise reads the separator
and an operand and goes on with the joined expression, ends with the left fold of the pairs of
the longest separated run, where the run ends. -/
theorem loop_eq_ok_iff (hp : ∀ ts x r, p ts = (.ok x, r) → r <:+ ts)
    (hstop : ∀ lhs ts, (∀ t rest, ts = t :: rest → ¬ sep t) → L lhs ts = (.ok lhs, ts))
    (hstep : ∀ lhs t rest, sep t →
      L lhs (t :: rest) = andThen (p rest) fun x r => L (.binary lhs t x) r)
    (lhs e : Expr π) (ts r : List (Token π)) :
    L lhs ts = (.ok e, r) ↔ ∃ steps, SepRun p sep ts steps r ∧ e = foldSteps lhs steps := by
  constructor
  · -- each round reads a separator, so the induction is on a bound of what is left
    intro h
    obtain ⟨n, hn⟩ : ∃ n, ts.length < n := ⟨_, Nat.lt_succ_self _⟩
    induction n generalizing lhs ts with
    | zero => omega
    | succ n ih =>
      by_cases hs : ∃ t rest, ts = t :: rest ∧ sep t
      · obtain ⟨t, rest, rfl, hst⟩ := hs
        rw [hstep lhs t rest hst] at h
        match hpr : p rest, h with
        | (.ok x, r1), h =>
          have hlen := (hp rest x r1 hpr).length_le
          obtain ⟨steps, hrun, rfl⟩ := ih _ _ h (by simp only [List.length_cons] at hn; omega)
          exact ⟨(t, x) :: steps, .more hst hpr hrun, rfl⟩
        | (.error _, _), h => simp at h
      · have hnot : ∀ t rest, ts = t :: rest → ¬ sep t := fun t rest he hst => hs ⟨t, rest, he, hst⟩
        rw [hstop lhs ts hnot, Prod.mk.injEq, Except.ok.injEq] at h
        obtain ⟨rfl, rfl⟩ := h
        exact ⟨[], .stop hnot, rfl⟩
  · rintro ⟨steps, hrun, rfl⟩
    induction hrun generalizing lhs with
    | stop hnot => exact hstop lhs _ hnot
    | more hst hpr _ ih => rw [hstep _ _ _ hst, hpr, andThen_ok, ih]; rfl

end Loop

variable (env : Env π) (d : Nat)

theorem binaryTail_eq_ok_iff (level : BinaryLevel) (lhs e : Expr π) (ts r : List (Token π)) :
    (binaryTail env d level lhs ts).view = (.ok e, r) ↔
      ∃ steps, SepRun (fun ts => (operand env d level ts).view) (fun t => t.kind ∈ level.operators)
        ts steps r ∧ e = foldSteps lhs steps := by
  refine loop_eq_ok_iff (L := fun lhs ts => (binaryTail env d level lhs ts).view)
    (fun ts x r h => Parsed.suffix_of_view h) (fun lhs ts hnot => ?_)
    (fun lhs t rest hst => binaryTail_operator env d level lhs hst rest) lhs e ts r
  cases ts with
  | nil => exact binaryTail_nil env d level lhs
  | cons t rest => exact binaryTail_stop env d level lhs (hnot t rest rfl)

theorem commaTail_eq_ok_iff (lhs e : Expr π) (ts r : List (Token π)) :
    (commaTail env d lhs ts).view = (.ok e, r) ↔
      ∃ steps, SepRun (fun ts => (ternary env d ts).view) (fun t => t.kind = .comma)
        ts steps r ∧ e = foldSteps lhs steps := by
  refine loop_eq_ok_iff (L := fun lhs ts => (commaTail env d lhs ts).view)
    (fun ts x r h => Parsed.suffix_of_view h) (fun lhs ts hnot => ?_)
    (fun lhs t rest hst => commaTail_comma env d lhs hst rest) lhs e ts r
  cases ts with
  | nil => exact commaTail_nil env d lhs
  | cons t rest => exact commaTail_stop env d lhs (hnot t rest rfl)

theorem andThen_eq_ok_iff {o : Except (ParseError π) (Expr π) × List (Token π)}
    {k : Expr π → List (Token π) → Except (ParseError π) (Expr π) × List (Token π)}
    {e : Expr π} {r : List (Token π)} :
    andThen o k = (.ok e, r) ↔ ∃ x r0, o = (.ok x, r0) ∧ k x r0 = (.ok e, r) := by
  obtain ⟨_ | x, r0⟩ := o
  · simp
  · constructor
    · exact fun h => ⟨x, r0, rfl, h⟩
    · rintro ⟨x', r0', he, h⟩
      simp only [Prod.mk.injEq, Except.ok.injEq] at he
      obtain ⟨rfl, rfl⟩ := he
      exact h

/-- A level that reads a first operand and then its loop succeeds exactly when the operand does
and the loop after it does. -/
theorem andThen_loop_eq_ok_iff {o : Except (ParseError π) (Expr π) × List (Token π)}
    {L : Expr π → List (Token π) → Except (ParseError π) (Expr π) × List (Token π)}
    {R : List (Token π) → List (Token π × Expr π) → List (Token π) → Prop}
    (hL : ∀ lhs e r0 r, L lhs r0 = (.ok e, r) ↔ ∃ steps, R r0 steps r ∧ e = foldSteps lhs steps)
    (e : Expr π) (r : List (Token π)) :
    andThen o L = (.ok e, r) ↔
      ∃ x r0 steps, o = (.ok x, r0) ∧ R r0 steps r ∧ e = foldSteps x steps := by
  simp only [andThen_eq_ok_iff, hL]
  constructor
  · rintro ⟨x, r0, hx, steps, hrun, rfl⟩
    exact ⟨x, r0, steps, hx, hrun, rfl⟩
  · rintro ⟨x, r0, steps, hx, hrun, rfl⟩
    exact ⟨x, r0, hx, steps, hrun, rfl⟩

/-- The prefix level reads the longest run of `-` and `!` and then a primary, and nests the
operators to the right over it, the first outermost, each spanning from itself to the end of
the primary: what the right-recursive rule reads. The comma level and each binary level read
the left fold of the operands they read over the longest run of operands joined by their
operators. -/
theorem loops_read_rules :
    (∀ ts, ∃ ops r, ts = ops ++ r ∧ (∀ o ∈ ops, o.kind = .minus ∨ o.kind = .bang) ∧
        (∀ t r', r = t :: r' → ¬ (t.kind = .minus ∨ t.kind = .bang)) ∧
        (unary env d ts).view =
          andThen (primary env d r).view (fun p r' => (.ok (ops.foldr .unary p), r')) ∧
        (∀ (p : Expr π) (i : Nat) (h : i < ops.length),
          ((ops.drop i).foldr .unary p).span = ⟨ops[i].start, p.span.stop⟩) ∧
        (unary env d ts).view = unaryRight env d ts) ∧
      (∀ level ts e r, (binary env d level ts).view = (.ok e, r) ↔
        ∃ x r0 steps, (operand env d level ts).view = (.ok x, r0) ∧
          SepRun (fun ts => (operand env d level ts).view) (fun t => t.kind ∈ level.operators)
            r0 steps r ∧ e = foldSteps x steps) ∧
      (∀ ts e r, (comma env d ts).view = (.ok e, r) ↔
        ∃ x r0 steps, (ternary env d ts).view = (.ok x, r0) ∧
          SepRun (fun ts => (ternary env d ts).view) (fun t => t.kind = .comma) r0 steps r ∧
          e = foldSteps x steps) := by
  refine ⟨fun ts => ?_, fun level ts e r => ?_, fun ts e r => ?_⟩
  · obtain ⟨happ, hops⟩ := prefixRun_spec ts
    refine ⟨(prefixRun ts).1, (prefixRun ts).2.1, happ.symm,
      fun o ho => (isPrefixKind_iff _).1 (hops o ho), fun t r' hr => ?_, unary_view env d ts,
      span_foldr_unary_drop _, unary_eq_unaryRight env d ts⟩
    rw [← isPrefixKind_iff, prefixRun_stops ts hr]
    simp
  · rw [binary_view]
    exact andThen_loop_eq_ok_iff (binaryTail_eq_ok_iff env d level) e r
  · rw [comma_view]
    exact andThen_loop_eq_ok_iff (commaTail_eq_ok_iff env d) e r

end ExprFront.Grammar
