import ExprFront.Proofs.Parse.Sound
/-!
# The language the parser accepts

The parser drops the comments, reads one expression and then requires the end of input. What it
reads is the comment-free list cut just before its first end-of-input token (`readable`): the
parser never passes such a token, and when the list has none, the one it makes up past the end
plays that part.

Main statement (`parseTokens_eq_ok_iff`): parsing gives a tree exactly when the readable tokens
are a sentence of the grammar whose derivation nests at most `maxNesting` conditions, and the
tree is the one of that derivation. The grammar is unambiguous: a sentence has one tree and one
nesting (`Comma.unique`), which follows from reading it back with and without a limit.
-/

namespace ExprFront

namespace Grammar

variable {π : Type} [Coord π]

theorem endTokenAfter_kind (ts : List (Token π)) : (endTokenAfter ts).kind = .eof := by
  unfold endTokenAfter
  split <;> rfl

/-- Past the readable tokens comes an end-of-input token, real or made up. -/
theorem peek_dropWhile_kind (ts : List (Token π)) (limit : Option Nat) :
    ((Env.ofTokens ts limit).peek (ts.dropWhile (fun t => t.kind != .eof))).kind = .eof := by
  cases h : ts.dropWhile (fun t => t.kind != .eof) with
  | nil => exact endTokenAfter_kind ts
  | cons t rest =>
    have := List.head_dropWhile_not (fun t : Token π => t.kind != .eof) (l := ts)
      (by rw [h]; exact List.cons_ne_nil t rest)
    simp only [h, List.head_cons, bne_eq_false_iff_eq] at this
    exact this

end Grammar

namespace Sentence

open Grammar

variable {π : Type}

/-- A sentence has one tree and one nesting. The tree is what a run without limit reads; a
second nesting would make a run with the smaller one as limit both succeed and fail. -/
theorem Comma.unique [Inhabited π] {ts : List (Token π)} {e₁ e₂ : Expr π} {n₁ n₂ : Nat}
    (h₁ : Comma ts e₁ n₁) (h₂ : Comma ts e₂ n₂) : e₁ = e₂ ∧ n₁ = n₂ := by
  -- runs over the sentence alone, with the end token past it and a given limit
  have hend : ∀ limit : Option Nat,
      EndsCondition ((⟨Token.ofKind .eof, limit⟩ : Env π).peek []).kind :=
    fun _ => endsCondition_of_closing (.inr (.inr (.inr rfl)))
  have hread : ∀ {e n} (limit : Option Nat), Comma ts e n →
      (⟨Token.ofKind .eof, limit⟩ : Env π).Fits 0 n →
      (comma ⟨Token.ofKind .eof, limit⟩ 0 (ts ++ [])).view = (.ok e, []) := by
    intro e n limit h hfit
    rw [h.comma_append hfit (hend limit),
      commaTail_stop _ 0 e (by rw [Env.peek_nil, Token.kind_ofKind]; decide)]
  refine ⟨?_, ?_⟩
  · have := (hread none h₁ (Env.fits_none rfl)).symm.trans (hread none h₂ (Env.fits_none rfl))
    simpa using this
  · have hlimit : ∀ {n n' : Nat} {e e' : Expr π}, Comma ts e n → Comma ts e' n' → ¬ n < n' := by
      intro n n' e e' h h' hlt
      have hsome : (⟨Token.ofKind .eof, some n⟩ : Env π).limit = some n := rfl
      have hd : (⟨Token.ofKind .eof, some n⟩ : Env π).Fits 0 0 :=
        (Env.fits_iff_of_limit hsome).2 (by omega)
      have hdeep : ¬ (⟨Token.ofKind .eof, some n⟩ : Env π).Fits 0 n' :=
        fun hf => absurd ((Env.fits_iff_of_limit hsome).1 hf) (by omega)
      obtain ⟨t, N, r, hx⟩ := h'.comma_fails hd hdeep (hend (some n))
      rw [hread (some n) h ((Env.fits_iff_of_limit hsome).2 (by omega))] at hx
      cases hx
    have := hlimit h₁ h₂
    have := hlimit h₂ h₁
    omega

end Sentence

open Grammar Sentence

variable {π : Type} [Coord π]

/-- Parsing a list of tokens gives a tree exactly when its readable tokens are a sentence whose
only derivation nests at most `maxNesting` conditions, the tree being that derivation's. -/
theorem parseTokens_eq_ok_iff (tokens : List (Token π)) (e : Expr π) :
    parseTokens tokens = .ok e ↔
      ∃ n, n ≤ maxNesting ∧ Comma (readable tokens) e n ∧
        ∀ e' n', Comma (readable tokens) e' n' → e' = e ∧ n' = n := by
  have : Inhabited π := ⟨Coord.ofCount 0⟩
  generalize hts : dropComments tokens = ts
  generalize henv : Env.ofTokens ts (some maxNesting) = env
  have hend : env.atEnd.kind = .eof := henv ▸ endTokenAfter_kind ts
  have hlimit : env.limit = some maxNesting := by rw [← henv]; rfl
  have hfits : ∀ n, env.Fits 0 n ↔ n ≤ maxNesting := fun n => by
    rw [Env.fits_iff_of_limit hlimit, Nat.zero_add]
  have hparse : parseTokens tokens = (parseAll env 0 ts).view.1 := by
    rw [← henv, ← hts]; rfl
  rw [hparse]
  constructor
  · intro hok
    rw [parseAll_view] at hok
    -- the comma expression read, then the end of input
    have hreads := (reads_all env hend).1 0 ts ((hfits 0).2 (Nat.zero_le _))
    generalize hc : (comma env 0 ts).view = o at hreads hok
    obtain ⟨_ | e₀, r⟩ := o
    · cases hok
    rw [andThen_ok] at hok
    generalize hx : (expect env .eof r).view = o' at hok
    obtain ⟨_ | _, r'⟩ := o'
    · cases hok
    cases hok
    obtain ⟨p, n, rfl, hp, hfit⟩ := hreads
    have hpeek : (env.peek r).kind = .eof := by
      rw [expect_view] at hx
      split at hx
      · assumption
      · cases hx
    have hw : readable tokens = p := by
      unfold readable
      rw [hts, List.takeWhile_append_of_pos (by simpa using hp.kind_ne_eof)]
      cases r with
      | nil => simp
      | cons t rest => simp [show t.kind = .eof from hpeek]
    rw [hw]
    exact ⟨n, (hfits n).1 hfit, hp, fun e' n' h' => (h'.unique hp)⟩
  · rintro ⟨n, hn, hw, -⟩
    have hsplit : ts = readable tokens ++ ts.dropWhile (fun t => t.kind != .eof) := by
      rw [readable, hts, List.takeWhile_append_dropWhile]
    have hpeek := peek_dropWhile_kind ts (some maxNesting)
    rw [henv] at hpeek
    rw [hsplit, hw.parseAll_append ((hfits n).2 hn) hpeek]

end ExprFront
