import ExprFront.Proofs.Parse.Stepping
import Mathlib.Order.Bounds.Basic
/-!
# Recovery stops at the first boundary

After an error the parser recovers with `synchronize`: it takes one token, then skips tokens
until it stands at a boundary, where the end of input comes next, a `;` was just taken, or a
keyword that starts a statement comes next (`Cursor.AtBoundary`). So it stops at the first
boundary after the token it took, and at the end of input it does not move at all; the tokens,
the depth and the limit stay as they were.

The number of tokens skipped (`skipCount`) is the distance to the first boundary from where the
skipping starts (`skipCount_isLeast`): the loop's invariant is that no position it has passed
was a boundary.

Main statement (`Cursor.synchronize_first_boundary`).
-/

namespace ExprFront

namespace Cursor

variable {π : Type} [Coord π]

/-- A cursor stands at a boundary of recovery: the end of input comes next, a `;` was just
taken, or a keyword that starts a statement comes next. -/
def AtBoundary (c : Cursor π) : Prop :=
  c.peekToken.kind = .eof ∨ c.previous.map (·.kind) = some .semicolon ∨
    c.peekToken.kind.startsStatement = true

theorem peekToken_of_rest_eq_cons {c : Cursor π} {t : Token π} {ts : List (Token π)}
    (h : c.rest = t :: ts) : c.peekToken = t := by
  rw [peekToken, h]
  rfl

theorem peekToken_kind_of_rest_eq_nil {c : Cursor π} (h : c.rest = []) :
    c.peekToken.kind = .eof := by
  rw [peekToken, h]
  exact c.env_atEnd_kind

/-- The first position from `q` on where `P` holds is `q` itself when `P q` holds, -/
theorem isLeast_ge_self {P : Nat → Prop} {q : Nat} (h : P q) :
    IsLeast {q' | q ≤ q' ∧ P q'} q :=
  ⟨⟨Nat.le_refl q, h⟩, fun _ h' => h'.1⟩

/-- and otherwise the first from `q + 1` on. -/
theorem isLeast_ge_succ {P : Nat → Prop} {q m : Nat} (hq : ¬ P q)
    (h : IsLeast {q' | q + 1 ≤ q' ∧ P q'} m) : IsLeast {q' | q ≤ q' ∧ P q'} m := by
  obtain ⟨⟨hm, hPm⟩, hleast⟩ := h
  refine ⟨⟨by omega, hPm⟩, fun q' ⟨hle, hq'⟩ => hleast ⟨?_, hq'⟩⟩
  rcases Nat.eq_or_lt_of_le hle with rfl | hlt
  · exact absurd hq' hq
  · exact hlt

/-- Skipping from position `q`, over the tokens from there, stops at the first boundary from
`q` on. -/
theorem skipCount_isLeast (c : Cursor π) :
    ∀ (ts : List (Token π)) (q : Nat), c.tokens.drop q = ts →
      IsLeast {q' | q ≤ q' ∧ AtBoundary { c with pos := q' }}
        (q + skipCount ({ c with pos := q } : Cursor π).previous ts) := by
  intro ts
  induction ts with
  | nil =>
    intro q hq
    rw [skipCount, Nat.add_zero]
    exact isLeast_ge_self (.inl (peekToken_kind_of_rest_eq_nil hq))
  | cons t ts ih =>
    intro q hq
    have hpeek : ({ c with pos := q } : Cursor π).peekToken = t := peekToken_of_rest_eq_cons hq
    unfold skipCount
    split
    · rename_i heof
      exact isLeast_ge_self (.inl (by rw [hpeek]; exact heof))
    split
    · rename_i hsemi
      exact isLeast_ge_self (.inr (.inl hsemi))
    split
    · rename_i hkw
      exact isLeast_ge_self (.inr (.inr (by rw [hpeek]; exact hkw)))
    rename_i heof hsemi hkw
    -- `q` is no boundary, so the first is the first from `q + 1`, just after `t`
    have hnext : c.tokens.drop (q + 1) = ts := by
      rw [← List.drop_drop, hq]
      rfl
    have hprev : ({ c with pos := q + 1 } : Cursor π).previous = some t := by
      simp only [previous, Nat.add_one_ne_zero, if_false, Nat.add_sub_cancel]
      rw [← List.head?_drop, hq]
      rfl
    have hfirst := ih (q + 1) hnext
    rw [hprev] at hfirst
    rw [show q + (skipCount (some t) ts + 1) = q + 1 + skipCount (some t) ts by omega]
    refine isLeast_ge_succ ?_ hfirst
    rintro (h | h | h)
    · rw [hpeek] at h
      exact heof h
    · exact hsemi h
    · rw [hpeek] at h
      exact hkw h

/-- Recovery at the end of input does not move: it takes nothing and skips nothing. Otherwise
it takes the next token and stops at the first boundary after it: the least position past the
one it started from where the end of input comes next, the token before is a `;`, or the next
token is a keyword that starts a statement. The tokens, the depth and the limit stay as they
were. -/
theorem synchronize_first_boundary (c : Cursor π) :
    c.synchronize.tokens = c.tokens ∧ c.synchronize.depth = c.depth ∧
      c.synchronize.limit = c.limit ∧
      (c.peekToken.kind = .eof → c.synchronize.pos = c.pos) ∧
      (c.peekToken.kind ≠ .eof →
        IsLeast {q | c.pos + 1 ≤ q ∧ AtBoundary { c with pos := q }} c.synchronize.pos) := by
  by_cases he : c.peekToken.kind = .eof
  · have hadvance : c.advance.2 = c := by simp [advance, he]
    -- the end of input comes next, so skipping stops at once
    have hskip : skipCount c.previous c.rest = 0 := by
      cases hr : c.rest with
      | nil => rfl
      | cons t ts =>
        have heof : t.kind = .eof := by rw [← peekToken_of_rest_eq_cons hr]; exact he
        simp [skipCount, heof]
    have hsync : c.synchronize = c := by
      show { c.advance.2 with
        pos := c.advance.2.pos + skipCount c.advance.2.previous c.advance.2.rest } = c
      rw [hadvance, hskip, Nat.add_zero]
    rw [hsync]
    exact ⟨rfl, rfl, rfl, fun _ => rfl, fun h => absurd he h⟩
  · have hadvance : c.advance.2 = { c with pos := c.pos + 1 } := by simp [advance, he]
    have hsync : c.synchronize = { c with
        pos := c.pos + 1 +
          skipCount ({ c with pos := c.pos + 1 } : Cursor π).previous
            (c.tokens.drop (c.pos + 1)) } := by
      show { c.advance.2 with
        pos := c.advance.2.pos + skipCount c.advance.2.previous c.advance.2.rest } = _
      rw [hadvance]
      rfl
    rw [hsync]
    exact ⟨rfl, rfl, rfl, fun h => absurd h he, fun _ => skipCount_isLeast c _ _ rfl⟩

end Cursor

end ExprFront
