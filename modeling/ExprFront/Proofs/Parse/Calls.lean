import Mathlib.Logic.Relation
import ExprFront.Proofs.Parse.Lookahead
/-!
# The calls a run makes

A run of a grammar function is a tree of calls. `comma` calls `ternary` and then its loop; a
condition calls the equality level and, after a `?`, a comma expression and another condition;
a binary level calls its operands and its loop; a primary in parentheses calls `comma` again.
`Calls env c c'` says that the run of `c` under `env` calls `c'`: the calls made before it
returned what `c` needs to get there. `Reaches` is its reflexive and transitive closure, every
call made while `c` runs.

Conditions are the frames the nesting limit counts. `Chain env c c' n` is a path of calls from
`c` to `c'` with `n` conditions on it before `c'`: the frames open when `c'` is entered, beyond
those already open when `c` was. The depth a call is given is that count (`Chain.depth_eq`).

Each call reads a shorter list of tokens, or the same list at a lower function, as the
grammar's termination measure says (`Calls.measure_lt`). So a property that holds of a call
whenever it holds of the calls it makes holds of every call (`Call.induction`). The first use:
a run without a limit never stops at a nesting error (`Call.run_shallow`).

## Main definitions

* `Grammar.Call`: a grammar function with its arguments.
* `Grammar.Calls`, `Grammar.Reaches`, `Grammar.Chain`.
-/

namespace ExprFront.Grammar

variable {π : Type}

/-- A call of a grammar function: the function, the depth it is given, its other arguments and
the tokens it reads. -/
inductive Call (π : Type) where
  | comma (depth : Nat) (ts : List (Token π))
  | commaTail (depth : Nat) (lhs : Expr π) (ts : List (Token π))
  | ternary (depth : Nat) (ts : List (Token π))
  | binary (depth : Nat) (level : BinaryLevel) (ts : List (Token π))
  | binaryTail (depth : Nat) (level : BinaryLevel) (lhs : Expr π) (ts : List (Token π))
  | operand (depth : Nat) (level : BinaryLevel) (ts : List (Token π))
  | unary (depth : Nat) (ts : List (Token π))
  | primary (depth : Nat) (ts : List (Token π))

namespace Call

/-- The outcome of the call under `env`. -/
def run (env : Env π) : Call π → Except (ParseError π) (Expr π) × List (Token π)
  | comma d ts => (Grammar.comma env d ts).view
  | commaTail d lhs ts => (Grammar.commaTail env d lhs ts).view
  | ternary d ts => (Grammar.ternary env d ts).view
  | binary d level ts => (Grammar.binary env d level ts).view
  | binaryTail d level lhs ts => (Grammar.binaryTail env d level lhs ts).view
  | operand d level ts => (Grammar.operand env d level ts).view
  | unary d ts => (Grammar.unary env d ts).view
  | primary d ts => (Grammar.primary env d ts).view

/-- The tokens the call reads. -/
def tokens : Call π → List (Token π)
  | comma _ ts | commaTail _ _ ts | ternary _ ts | binary _ _ ts | binaryTail _ _ _ ts
  | operand _ _ ts | unary _ ts | primary _ ts => ts

/-- The depth the call is given. -/
def depth : Call π → Nat
  | comma d _ | commaTail d _ _ | ternary d _ | binary d _ _ | binaryTail d _ _ _
  | operand d _ _ | unary d _ | primary d _ => d

/-- The frames the call opens: one for a condition, none otherwise. -/
def opens : Call π → Nat
  | ternary .. => 1
  | _ => 0

/-- The termination measure of the grammar functions. -/
def measure : Call π → Nat
  | comma _ ts => ts.length * 32 + 19
  | commaTail _ _ ts => ts.length * 32 + 18
  | ternary _ ts => ts.length * 32 + 17
  | binary _ level ts => ts.length * 32 + 3 * level.rank + 6
  | binaryTail _ level _ ts => ts.length * 32 + 3 * level.rank + 5
  | operand _ level ts => ts.length * 32 + 3 * level.rank + 4
  | unary _ ts => ts.length * 32 + 3
  | primary _ ts => ts.length * 32 + 2

theorem rest_suffix (env : Env π) (c : Call π) : (c.run env).2 <:+ c.tokens := by
  cases c <;> exact Parsed.suffix _

end Call

theorem Parsed.suffix_of_view {ts r : List (Token π)} {α : Type} {p : Parsed ts α}
    {res : Except (ParseError π) α} (h : p.view = (res, r)) : r <:+ ts := by
  have hrest : p.rest = r := congrArg Prod.snd h
  exact hrest ▸ p.suffix

/-- `Calls env c c'`: the run of `c` under `env` calls `c'`, the calls it made before having
returned what it needs to get there. One constructor per call in the grammar functions. -/
inductive Calls (env : Env π) : Call π → Call π → Prop where
  | comma_ternary {d : Nat} {ts : List (Token π)} : Calls env (.comma d ts) (.ternary d ts)
  | comma_tail {d : Nat} {ts r : List (Token π)} {lhs : Expr π} :
      (ternary env d ts).view = (.ok lhs, r) → Calls env (.comma d ts) (.commaTail d lhs r)
  | commaTail_ternary {d : Nat} {lhs : Expr π} {t : Token π} {rest : List (Token π)} :
      t.kind = .comma → Calls env (.commaTail d lhs (t :: rest)) (.ternary d rest)
  | commaTail_tail {d : Nat} {lhs rhs : Expr π} {t : Token π} {rest r : List (Token π)} :
      t.kind = .comma → (ternary env d rest).view = (.ok rhs, r) →
      Calls env (.commaTail d lhs (t :: rest)) (.commaTail d (.binary lhs t rhs) r)
  | ternary_binary {d : Nat} {ts : List (Token π)} :
      env.blocks d = none → Calls env (.ternary d ts) (.binary (d + 1) .equality ts)
  | ternary_then {d : Nat} {ts r1 : List (Token π)} {c : Expr π} {q : Token π} :
      env.blocks d = none → (binary env (d + 1) .equality ts).view = (.ok c, q :: r1) →
      q.kind = .question → Calls env (.ternary d ts) (.comma (d + 1) r1)
  | ternary_else {d : Nat} {ts r1 r2 r3 : List (Token π)} {c th : Expr π} {q k : Token π} :
      env.blocks d = none → (binary env (d + 1) .equality ts).view = (.ok c, q :: r1) →
      q.kind = .question → (comma env (d + 1) r1).view = (.ok th, r2) →
      (expect env .colon r2).view = (.ok k, r3) → Calls env (.ternary d ts) (.ternary (d + 1) r3)
  | binary_operand {d : Nat} {level : BinaryLevel} {ts : List (Token π)} :
      Calls env (.binary d level ts) (.operand d level ts)
  | binary_tail {d : Nat} {level : BinaryLevel} {ts r : List (Token π)} {lhs : Expr π} :
      (operand env d level ts).view = (.ok lhs, r) →
      Calls env (.binary d level ts) (.binaryTail d level lhs r)
  | binaryTail_operand {d : Nat} {level : BinaryLevel} {lhs : Expr π} {t : Token π}
      {rest : List (Token π)} :
      t.kind ∈ level.operators →
        Calls env (.binaryTail d level lhs (t :: rest)) (.operand d level rest)
  | binaryTail_tail {d : Nat} {level : BinaryLevel} {lhs rhs : Expr π} {t : Token π}
      {rest r : List (Token π)} :
      t.kind ∈ level.operators → (operand env d level rest).view = (.ok rhs, r) →
      Calls env (.binaryTail d level lhs (t :: rest)) (.binaryTail d level (.binary lhs t rhs) r)
  | operand_equality {d : Nat} {ts : List (Token π)} :
      Calls env (.operand d .equality ts) (.binary d .comparison ts)
  | operand_comparison {d : Nat} {ts : List (Token π)} :
      Calls env (.operand d .comparison ts) (.binary d .term ts)
  | operand_term {d : Nat} {ts : List (Token π)} :
      Calls env (.operand d .term ts) (.binary d .factor ts)
  | operand_factor {d : Nat} {ts : List (Token π)} :
      Calls env (.operand d .factor ts) (.unary d ts)
  | unary_primary {d : Nat} {ts : List (Token π)} :
      Calls env (.unary d ts) (.primary d (prefixRun ts).2.1)
  | primary_group {d : Nat} {t : Token π} {rest : List (Token π)} :
      t.kind = .leftParen → Calls env (.primary d (t :: rest)) (.comma d rest)

/-- Every call made while `c` runs under `env`, `c` included. -/
def Reaches (env : Env π) : Call π → Call π → Prop := Relation.ReflTransGen (Calls env)

/-- `Chain env c c' n`: a path of calls from `c` to `c'`, with `n` conditions on it before `c'`. -/
inductive Chain (env : Env π) : Call π → Call π → Nat → Prop where
  | refl (c : Call π) : Chain env c c 0
  | call {c y z : Call π} {n : Nat} : Calls env c y → Chain env y z n → Chain env c z (c.opens + n)

variable {env : Env π} {c y z : Call π}

namespace Calls

/-- A callee reads a suffix of what its caller reads. -/
theorem tokens_suffix (h : Calls env c y) : y.tokens <:+ c.tokens := by
  cases h with
  | comma_ternary | ternary_binary _ | binary_operand | operand_equality | operand_comparison
  | operand_term | operand_factor => exact List.suffix_refl _
  | comma_tail h | binary_tail h => exact Parsed.suffix_of_view h
  | commaTail_ternary _ | binaryTail_operand _ | primary_group _ => exact List.suffix_cons _ _
  | commaTail_tail _ h | binaryTail_tail _ h =>
    exact (Parsed.suffix_of_view h).trans (List.suffix_cons _ _)
  | ternary_then _ hb _ => exact (List.suffix_cons _ _).trans (Parsed.suffix_of_view hb)
  | ternary_else _ hb _ hc he =>
    exact (Parsed.suffix_of_view he).trans
      ((Parsed.suffix_of_view hc).trans ((List.suffix_cons _ _).trans (Parsed.suffix_of_view hb)))
  | unary_primary => exact (prefixRun _).2.2

/-- A callee is one condition deeper than a condition, and as deep as any other caller. -/
theorem depth_eq (h : Calls env c y) : y.depth = c.depth + c.opens := by
  cases h <;> rfl

theorem measure_lt (h : Calls env c y) : y.measure < c.measure := by
  cases h with
  | comma_ternary | ternary_binary _ | binary_operand | operand_equality | operand_comparison
  | operand_term | operand_factor =>
    simp only [Call.measure, BinaryLevel.rank]
    omega
  | comma_tail h | binary_tail h =>
    have := (Parsed.suffix_of_view h).length_le
    simp only [Call.measure]
    omega
  | commaTail_ternary _ | binaryTail_operand _ | primary_group _ =>
    simp only [Call.measure, List.length_cons]
    omega
  | commaTail_tail _ h | binaryTail_tail _ h =>
    have := (Parsed.suffix_of_view h).length_le
    simp only [Call.measure, List.length_cons]
    omega
  | ternary_then _ hb _ =>
    have := (Parsed.suffix_of_view hb).length_le
    simp only [Call.measure, List.length_cons] at this ⊢
    omega
  | ternary_else _ hb _ hc he =>
    have h₁ := (Parsed.suffix_of_view hb).length_le
    have h₂ := (Parsed.suffix_of_view hc).length_le
    have h₃ := (Parsed.suffix_of_view he).length_le
    simp only [Call.measure, List.length_cons] at h₁ ⊢
    omega
  | @unary_primary _ ts =>
    have := (prefixRun ts).2.2.length_le
    simp only [Call.measure]
    omega

end Calls

/-- A property that holds of a call whenever it holds of every call that call makes holds of
every call. -/
theorem Call.induction (env : Env π) {P : Call π → Prop}
    (step : ∀ c, (∀ y, Calls env c y → P y) → P c) (c : Call π) : P c :=
  (InvImage.wf Call.measure Nat.lt_wfRel.wf).induction c fun c ih =>
    step c fun y hy => ih y hy.measure_lt

namespace Reaches

theorem head (h : Calls env c y) (hy : Reaches env y z) : Reaches env c z :=
  Relation.ReflTransGen.head h hy

/-- A call reached from `c` reads a suffix of what `c` reads. -/
theorem tokens_suffix (h : Reaches env c z) : z.tokens <:+ c.tokens := by
  induction h with
  | refl => exact List.suffix_refl _
  | tail _ hyz ih => exact hyz.tokens_suffix.trans ih

/-- A call reached from `c` is `c` itself or reached from a call `c` makes. -/
theorem cases_head (h : Reaches env c z) : c = z ∨ ∃ y, Calls env c y ∧ Reaches env y z :=
  Relation.ReflTransGen.cases_head h

end Reaches

namespace Chain

theorem reaches {n : Nat} (h : Chain env c z n) : Reaches env c z := by
  induction h with
  | refl => exact Relation.ReflTransGen.refl
  | call hy _ ih => exact Reaches.head hy ih

theorem exists_of_reaches (h : Reaches env c z) : ∃ n, Chain env c z n := by
  induction h using Relation.ReflTransGen.head_induction_on with
  | refl => exact ⟨0, .refl _⟩
  | head hy _ ih =>
    obtain ⟨n, hn⟩ := ih
    exact ⟨_, .call hy hn⟩

/-- The depth a call is given counts the conditions open around it: those on a path of calls
to it, and those open around the call the path starts from. -/
theorem depth_eq {n : Nat} (h : Chain env c z n) : z.depth = c.depth + n := by
  induction h with
  | refl => rfl
  | call hy _ ih =>
    rw [ih, hy.depth_eq]
    omega

end Chain

/-! ## Runs without a limit -/

theorem Shallow.andThen {α β : Type} {o : Except (ParseError π) α × List (Token π)}
    {k : α → List (Token π) → Except (ParseError π) β × List (Token π)} (h : Shallow o.1)
    (hk : ∀ a r, o = (.ok a, r) → Shallow (k a r).1) : Shallow (Grammar.andThen o k).1 := by
  obtain ⟨_ | a, r⟩ := o
  · intro x hx
    cases hx
    exact h _ rfl
  · exact hk a r rfl

theorem expect_shallow (k : TokenKind) (ts : List (Token π)) :
    Shallow (expect env k ts).view.1 := by
  rw [expect_view]
  split
  · exact shallow_ok _
  · intro x hx
    cases hx
    simp [ParseError.kindName]

theorem expectedExpression_shallow {α : Type} (t : Token π) :
    Shallow (.error (.expectedExpression t) : Except (ParseError π) α) := by
  intro x hx
  cases hx
  simp [ParseError.kindName]

/-- Without a limit no condition is blocked, so no run stops at a nesting error: every error
comes from a token that is not the one expected. -/
theorem Call.run_shallow (hnone : env.limit = none) (c : Call π) : Shallow (c.run env).1 := by
  have hopen : ∀ d, env.blocks d = none := fun d => by simp [Env.blocks, hnone]
  refine Call.induction env (P := fun c => Shallow (c.run env).1) (fun c ih => ?_) c
  cases c with
  | comma d ts =>
    show Shallow (Grammar.comma env d ts).view.1
    rw [comma_view]
    exact (ih _ .comma_ternary).andThen fun _ _ h => ih _ (.comma_tail h)
  | commaTail d lhs ts =>
    show Shallow (Grammar.commaTail env d lhs ts).view.1
    cases ts with
    | nil => rw [commaTail_nil]; exact shallow_ok _
    | cons t rest =>
      by_cases hk : t.kind = .comma
      · rw [commaTail_comma env d lhs hk]
        exact (ih _ (.commaTail_ternary hk)).andThen fun _ _ h => ih _ (.commaTail_tail hk h)
      · rw [commaTail_stop env d lhs (by rwa [Env.peek_cons])]
        exact shallow_ok _
  | ternary d ts =>
    show Shallow (Grammar.ternary env d ts).view.1
    rw [ternary_open env d (hopen d)]
    refine (ih _ (.ternary_binary (hopen d))).andThen fun c r hb => ?_
    cases r with
    | nil => exact shallow_ok _
    | cons q r1 =>
      by_cases hq : q.kind = .question
      · simp only [if_pos hq]
        refine (ih _ (.ternary_then (hopen d) hb hq)).andThen fun th r2 hc => ?_
        refine (expect_shallow _ _).andThen fun k r3 he => ?_
        exact (ih _ (.ternary_else (hopen d) hb hq hc he)).andThen fun _ _ _ => shallow_ok _
      · simp only [if_neg hq]
        exact shallow_ok _
  | binary d level ts =>
    show Shallow (Grammar.binary env d level ts).view.1
    rw [binary_view]
    exact (ih _ .binary_operand).andThen fun _ _ h => ih _ (.binary_tail h)
  | binaryTail d level lhs ts =>
    show Shallow (Grammar.binaryTail env d level lhs ts).view.1
    cases ts with
    | nil => rw [binaryTail_nil]; exact shallow_ok _
    | cons t rest =>
      by_cases hk : t.kind ∈ level.operators
      · rw [binaryTail_operator env d level lhs hk]
        exact (ih _ (.binaryTail_operand hk)).andThen fun _ _ h => ih _ (.binaryTail_tail hk h)
      · rw [binaryTail_stop env d level lhs (by rwa [Env.peek_cons])]
        exact shallow_ok _
  | operand d level ts =>
    show Shallow (Grammar.operand env d level ts).view.1
    cases level with
    | equality => rw [operand_equality]; exact ih _ .operand_equality
    | comparison => rw [operand_comparison]; exact ih _ .operand_comparison
    | term => rw [operand_term]; exact ih _ .operand_term
    | factor => rw [operand_factor]; exact ih _ .operand_factor
  | unary d ts =>
    show Shallow (Grammar.unary env d ts).view.1
    rw [unary_view]
    exact (ih _ .unary_primary).andThen fun _ _ _ => shallow_ok _
  | primary d ts =>
    show Shallow (Grammar.primary env d ts).view.1
    cases ts with
    | nil => rw [primary_nil]; exact expectedExpression_shallow _
    | cons t rest =>
      cases hl : isLiteralKind t.kind
      · by_cases hp : t.kind = .leftParen
        · rw [primary_group env d hl hp]
          exact (ih _ (.primary_group hp)).andThen fun _ _ _ =>
            (expect_shallow _ _).andThen fun _ _ _ => shallow_ok _
        · rw [primary_other env d hl hp]
          exact expectedExpression_shallow _
      · rw [primary_literal env d hl]
        exact shallow_ok _

end ExprFront.Grammar
