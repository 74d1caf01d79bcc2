import Mathlib.Data.Prod.Lex
import ExprFront.Proofs.Parse.Stepping
/-!
# Every parse terminates

The grammar functions call each other without end only if some chain of calls is endless
(`Grammar.Calls`). None is, for the reason the loops and the nesting limit give. A round of the
comma loop or of a binary loop takes its operator, a token that is not the end of input, before
anything it calls reads on (`Calls.loop_takes`); the run of prefix operators and recovery take
only such tokens. A condition calls everything one level deeper, and under the parser's limit
only while that level fits, so below a condition at depth `d` every call, every condition entered
again among them, is deeper than `d` and at most at the limit (`Calls.ternary_reaches_depth`).

So every call lowers, lexicographically, the levels left below the limit, the tokens left, and
how loose its function is (`Calls.lexMeasure_lt`): the first never grows and falls when a
condition opens a level, the second never grows, and the third falls whenever the other two
stay. That order has no endless descent, and neither has the relation of calls.

Main statement (`calls_terminate`).
-/

namespace ExprFront.Grammar

variable {π : Type}

theorem BinaryLevel.rank_le (level : BinaryLevel) : level.rank ≤ 3 := by
  cases level <;> simp [BinaryLevel.rank]

namespace Call

/-- How loose the function of a call is: its part of the grammar's termination measure beside
the tokens left. -/
def rank : Call π → Nat
  | comma .. => 19
  | commaTail .. => 18
  | ternary .. => 17
  | binary _ level _ => 3 * level.rank + 6
  | binaryTail _ level _ _ => 3 * level.rank + 5
  | operand _ level _ => 3 * level.rank + 4
  | unary .. => 3
  | primary .. => 2

theorem measure_eq_rank (c : Call π) : c.measure = c.tokens.length * 32 + c.rank := by
  cases c <;> rfl

theorem rank_lt (c : Call π) : c.rank < 32 := by
  cases c with
  | binary _ level _ | binaryTail _ level _ _ | operand _ level _ =>
    have := level.rank_le
    simp only [rank]
    omega
  | _ => simp [rank]

/-- The measure of a call against a limit `N`: the condition levels left below `N`, the tokens
left, and the rank, compared in that order. -/
def lexMeasure (N : Nat) (c : Call π) : Nat ×ₗ Nat ×ₗ Nat :=
  toLex (N - c.depth, toLex (c.tokens.length, c.rank))

/-- A round of the comma loop or of a binary loop. -/
def IsLoop : Call π → Prop
  | commaTail .. | binaryTail .. => True
  | _ => False

end Call

variable {env : Env π} {c y z : Call π}

namespace Calls

theorem depth_le_depth (h : Calls env c y) : c.depth ≤ y.depth := by
  rw [h.depth_eq]
  omega

/-- A callee has no more tokens left than its caller, and the same number only at a tighter
function. -/
theorem tokens_rank_lt (h : Calls env c y) :
    toLex (y.tokens.length, y.rank) < toLex (c.tokens.length, c.rank) := by
  have hm := h.measure_lt
  rw [Call.measure_eq_rank, Call.measure_eq_rank] at hm
  have hy := y.rank_lt
  have hc := c.rank_lt
  rw [Prod.Lex.toLex_lt_toLex]
  rcases Nat.lt_or_eq_of_le h.tokens_suffix.length_le with hlt | heq
  · exact .inl hlt
  · exact .inr ⟨heq, by rw [heq] at hm; omega⟩

theorem lexMeasure_lt (h : Calls env c y) (N : Nat) : y.lexMeasure N < c.lexMeasure N := by
  rw [Call.lexMeasure, Call.lexMeasure, Prod.Lex.toLex_lt_toLex]
  rcases Nat.lt_or_eq_of_le (Nat.sub_le_sub_left h.depth_le_depth N) with hlt | heq
  · exact .inl hlt
  · exact .inr ⟨heq, h.tokens_rank_lt⟩

/-- A loop round takes a token that is not the end of input before its callee reads on. -/
theorem loop_takes (h : Calls env c y) (hc : c.IsLoop) :
    ∃ t rest, c.tokens = t :: rest ∧ t.kind ≠ .eof ∧ y.tokens <:+ rest := by
  cases h with
  | commaTail_ternary hk => exact ⟨_, _, rfl, by simp [hk], List.suffix_refl _⟩
  | commaTail_tail hk hr => exact ⟨_, _, rfl, by simp [hk], Parsed.suffix_of_view hr⟩
  | @binaryTail_operand _ level _ t _ hk =>
    exact ⟨_, _, rfl, fun heof => level.eof_not_mem_operators (heof ▸ hk), List.suffix_refl _⟩
  | @binaryTail_tail _ level _ _ t _ _ hk hr =>
    exact ⟨_, _, rfl, fun heof => level.eof_not_mem_operators (heof ▸ hk),
      Parsed.suffix_of_view hr⟩
  | _ => exact hc.elim

/-- Under a limit a condition calls one level deeper, within the limit. -/
theorem ternary_depth {N d : Nat} {ts : List (Token π)} (hN : env.limit = some N)
    (h : Calls env (.ternary d ts) y) : y.depth = d + 1 ∧ y.depth ≤ N := by
  refine ⟨h.depth_eq, ?_⟩
  rw [h.depth_eq]
  cases h with
  | ternary_binary hb | ternary_then hb _ _ | ternary_else hb _ _ _ _ =>
    exact (Env.fits_iff_of_limit hN).1 (Env.blocks_eq_none_iff.1 hb)

end Calls

theorem Reaches.depth_le_depth (h : Reaches env c z) : c.depth ≤ z.depth := by
  induction h with
  | refl => exact le_rfl
  | tail _ hyz ih => exact le_trans ih hyz.depth_le_depth

/-- Every call below a condition at depth `d`, a condition entered again among them, is deeper
than `d` and within the limit. -/
theorem Calls.ternary_reaches_depth {N d : Nat} {ts : List (Token π)} (hN : env.limit = some N)
    (h : Calls env (.ternary d ts) y) (hz : Reaches env y z) : d < z.depth ∧ z.depth ≤ N := by
  obtain ⟨hdepth, hle⟩ := h.ternary_depth hN
  exact ⟨by have := hz.depth_le_depth; omega, hz.depth_le hN hle⟩

/-- No chain of calls is endless: every call lowers the lexicographic measure. -/
theorem calls_wellFounded (env : Env π) (N : Nat) : WellFounded (fun y c => Calls env c y) :=
  Subrelation.wf (fun h => h.lexMeasure_lt N) (InvImage.wf (Call.lexMeasure N) wellFounded_lt)

/-- Every run of the grammar functions over a list of tokens, under the parser's limit,
terminates. Each round of the comma loop or of a binary loop takes a token that is not the end
of input before its callee reads on; the run of prefix operators and recovery take only such
tokens. Every call below a condition, every condition entered again among them, is a level
deeper than it and within the limit, as is every call below one within it. So every call lowers
the levels left below the limit, the tokens left and the looseness of its function, compared in
that order, and no chain of calls is endless. -/
theorem calls_terminate [Coord π] (tokens : List (Token π)) :
    (∀ c y, Calls (Env.ofTokens tokens (some maxNesting)) c y → c.IsLoop →
      ∃ t rest, c.tokens = t :: rest ∧ t.kind ≠ .eof ∧ y.tokens <:+ rest) ∧
    (∀ ts : List (Token π), PassesNoEnd ts (prefixRun ts).2.1) ∧
    (∀ (prev : Option (Token π)) ts, PassesNoEnd ts (ts.drop (Cursor.skipCount prev ts))) ∧
    (∀ d ts y z, Calls (Env.ofTokens tokens (some maxNesting)) (.ternary d ts) y →
      Reaches (Env.ofTokens tokens (some maxNesting)) y z → d < z.depth ∧ z.depth ≤ maxNesting) ∧
    (∀ c z, c.depth ≤ maxNesting → Reaches (Env.ofTokens tokens (some maxNesting)) c z →
      z.depth ≤ maxNesting) ∧
    (∀ c y, Calls (Env.ofTokens tokens (some maxNesting)) c y →
      y.lexMeasure maxNesting < c.lexMeasure maxNesting) ∧
    WellFounded (fun y c => Calls (Env.ofTokens tokens (some maxNesting)) c y) :=
  ⟨fun _ _ h hc => h.loop_takes hc, prefixRun_passesNoEnd,
    fun prev ts => (Cursor.skipCount_passesNoEnd prev ts).2,
    fun _ _ _ _ h hz => h.ternary_reaches_depth rfl hz,
    fun _ _ hc hz => hz.depth_le rfl hc,
    fun _ _ h => h.lexMeasure_lt maxNesting, calls_wellFounded _ maxNesting⟩

end ExprFront.Grammar
