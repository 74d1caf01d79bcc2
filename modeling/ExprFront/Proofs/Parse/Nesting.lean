import ExprFront.Proofs.Parse.Calls
import ExprFront.Proofs.Parse.Language
/-!
# The nesting limit only cuts runs short

Run the grammar functions twice on the same tokens, once with the nesting limit `N` and once
without a limit. The two runs make the same calls until the unlimited one enters a condition
with `N` conditions already open around it: there the limited run stops with a nesting error,
found at the token at the cursor, and the error travels up unchanged. If the unlimited run never
enters such a condition, the two runs are the same.

`CutAt` says this of two outcomes, given the positions where the unlimited run enters
conditions past the limit (`Deep`) and those where it enters them exactly at the limit
(`AtLimit`): the positions of a run's calls only move forward, so the first condition past the
limit is entered at the longest of them, and the unlimited run ends no earlier. Each grammar
function is cut as its calls are (`cut_comma`, `cut_ternary_open`, …), and so every call is, by
induction over the calls (`cut_of_depth_le`).

Main statement (`parseTokensWithin_cut`): the parse with limit `N` is the unlimited parse, or a
nesting error naming `N`; it is the unlimited parse exactly when that one never has more than
`N` conditions open; and the error is found at the cursor where the first condition past the
limit was entered. Groupings nested `n` deep, and chains of `k` conditions in else-branches,
parse exactly when `n ≤ 255` and `k ≤ 255`.
-/

namespace ExprFront

namespace Grammar

variable {π : Type}

/-- The environment with another nesting limit. -/
def Env.withLimit (env : Env π) (limit : Option Nat) : Env π := { env with limit }

namespace Env

variable (env : Env π)

@[simp] theorem peek_withLimit (limit : Option Nat) (ts : List (Token π)) :
    (env.withLimit limit).peek ts = env.peek ts := by
  cases ts <;> rfl

theorem blocks_withLimit_of_lt {N d : Nat} (h : d < N) :
    (env.withLimit (some N)).blocks d = none := by
  simp [blocks, withLimit, Nat.not_le.2 h]

theorem blocks_withLimit_self (N : Nat) : (env.withLimit (some N)).blocks N = some N := by
  simp [blocks, withLimit]

end Env

theorem expect_withLimit (env : Env π) (limit : Option Nat) (k : TokenKind) (ts : List (Token π)) :
    expect (env.withLimit limit) k ts = expect env k ts := rfl

/-- Continuing with the value read, where it was read, changes nothing. -/
theorem andThen_return {α : Type} (o : Except (ParseError π) α × List (Token π)) :
    andThen o (fun a r => (.ok a, r)) = o := by
  obtain ⟨_ | a, r⟩ := o <;> rfl

/-- What an open condition at `depth` does after its then-branch: a `:` and a condition one
level deeper. -/
def elseBranch (env : Env π) (depth : Nat) (cond th : Expr π) (r2 : List (Token π)) :
    Except (ParseError π) (Expr π) × List (Token π) :=
  andThen (expect env .colon r2).view fun _ r3 =>
    andThen (ternary env (depth + 1) r3).view fun el r4 => (.ok (.condition cond th el), r4)

/-- What an open condition at `depth` does after `cond ?`: a comma expression one level deeper,
then its else-branch. -/
def branches (env : Env π) (depth : Nat) (cond : Expr π) (r1 : List (Token π)) :
    Except (ParseError π) (Expr π) × List (Token π) :=
  andThen (comma env (depth + 1) r1).view (elseBranch env depth cond)

theorem andThen_rest_suffix {ts : List (Token π)} {α β : Type} {p : Parsed ts α}
    {k : α → List (Token π) → Except (ParseError π) β × List (Token π)}
    (hk : ∀ a r, (k a r).2 <:+ r) : (andThen p.view k).2 <:+ ts := by
  obtain ⟨_ | a, r, h⟩ := p
  · exact h
  · exact (hk a r).trans h

theorem elseBranch_rest_suffix (env : Env π) (depth : Nat) (cond th : Expr π)
    (r2 : List (Token π)) : (elseBranch env depth cond th r2).2 <:+ r2 :=
  andThen_rest_suffix fun _ _ => andThen_rest_suffix fun _ r4 => List.suffix_refl r4

section Cut

variable (env : Env π) (N : Nat)

/-- The positions at which the run of `c` without a limit enters a condition with at least `N`
conditions open around it. -/
def Deep (c : Call π) (x : List (Token π)) : Prop :=
  ∃ D, N ≤ D ∧ Reaches (env.withLimit none) c (.ternary D x)

/-- The positions at which the run of `c` without a limit enters a condition with exactly `N`
conditions open around it. -/
def AtLimit (c : Call π) (x : List (Token π)) : Prop :=
  Reaches (env.withLimit none) c (.ternary N x)

/-- `P` holds at `x` of a call the branches of a condition at depth `d` make without a limit:
the then-branch on `r1`, or once it and the `:` are read, the else-branch. -/
def InBranches (d : Nat) (r1 : List (Token π)) (P : Call π → List (Token π) → Prop)
    (x : List (Token π)) : Prop :=
  P (.comma (d + 1) r1) x ∨
    ∃ th r2 k r3, (comma (env.withLimit none) (d + 1) r1).view = (.ok th, r2) ∧
      (expect env .colon r2).view = (.ok k, r3) ∧ P (.ternary (d + 1) r3) x

/-- The outcome `o₁` is `o₂` cut short by the limit `N`: the same outcome when there is no
position in `deep`, and otherwise a nesting error found at a position `r₀` of `atLimit`, which
no position of `deep` comes before and where `o₂` has not yet stopped. -/
def CutAt {α : Type} (o₁ o₂ : Except (ParseError π) α × List (Token π))
    (deep atLimit : List (Token π) → Prop) : Prop :=
  ((∀ x, ¬ deep x) ∧ o₁ = o₂) ∨
    ∃ r₀, atLimit r₀ ∧ (∀ x, deep x → x <:+ r₀) ∧ o₂.2 <:+ r₀ ∧
      o₁ = (.error (.nestingTooDeep (env.peek r₀) N), r₀)

/-- The run of `c` with the limit `N` is its run without a limit, cut short at the first
condition it would open past the limit. -/
def Cut (c : Call π) : Prop :=
  CutAt env N (c.run (env.withLimit (some N))) (c.run (env.withLimit none)) (Deep env N c)
    (AtLimit env N c)

variable {env N} {c y : Call π} {x : List (Token π)}

theorem Deep.suffix (h : Deep env N c x) : x <:+ c.tokens := by
  obtain ⟨D, -, h⟩ := h
  exact h.tokens_suffix

/-- A position past the limit that `c` reaches, `c` not being there itself, is reached by one of
the calls `c` makes. -/
theorem Deep.exists_calls (h : Deep env N c x) (hc : ∀ D, N ≤ D → c ≠ .ternary D x) :
    ∃ y, Calls (env.withLimit none) c y ∧ Deep env N y x := by
  obtain ⟨D, hD, h⟩ := h
  rcases h.cases_head with rfl | ⟨y, hy, h⟩
  · exact absurd rfl (hc D hD)
  · exact ⟨y, hy, D, hD, h⟩

theorem AtLimit.head (hy : Calls (env.withLimit none) c y) (h : AtLimit env N y x) :
    AtLimit env N c x :=
  Reaches.head hy h

theorem AtLimit.deep (h : AtLimit env N c x) : Deep env N c x :=
  ⟨N, Nat.le_refl N, h⟩

namespace CutAt

variable {α β : Type} {o₁ o₂ : Except (ParseError π) α × List (Token π)}
  {deep deep' atLimit atLimit' : List (Token π) → Prop}

theorem mono (h : CutAt env N o₁ o₂ deep atLimit) (hd : ∀ x, deep' x → deep x)
    (ha : ∀ x, atLimit x → atLimit' x) : CutAt env N o₁ o₂ deep' atLimit' := by
  rcases h with ⟨hnone, heq⟩ | ⟨r₀, hat, hdeep, hrest, h₁⟩
  · exact .inl ⟨fun x hx => hnone x (hd x hx), heq⟩
  · exact .inr ⟨r₀, ha r₀ hat, fun x hx => hdeep x (hd x hx), hrest, h₁⟩

/-- An outcome that does not depend on the limit. -/
theorem same (o : Except (ParseError π) α × List (Token π)) :
    CutAt env N o o (fun _ => False) atLimit :=
  .inl ⟨fun _ h => h, rfl⟩

/-- A run that stops where its first part failed without the limit. -/
theorem andThen_error {k₁ k₂ : α → List (Token π) → Except (ParseError π) β × List (Token π)}
    {e : ParseError π} {r : List (Token π)} (h : CutAt env N o₁ (.error e, r) deep atLimit) :
    CutAt env N (andThen o₁ k₁) (andThen (.error e, r) k₂) deep atLimit := by
  rcases h with ⟨hnone, rfl⟩ | ⟨r₀, hat, hdeep, hrest, rfl⟩
  · exact .inl ⟨hnone, rfl⟩
  · exact .inr ⟨r₀, hat, hdeep, hrest, rfl⟩

/-- A run `O₁` that begins with the outcome `o₁`: it fails where `o₁` fails, and compares with
`o₂'` as `CutAt` says when `o₁` is the first part's outcome without the limit. Whatever the
rest of the run reaches comes after the first part, so a cut in the first part comes first. -/
theorem first {O₁ o₂' : Except (ParseError π) β × List (Token π)} {a : α} {r : List (Token π)}
    (h : CutAt env N o₁ (.ok a, r) deep atLimit)
    (herr : ∀ e r', o₁ = (.error e, r') → O₁ = (.error e, r'))
    (hok : o₁ = (.ok a, r) → CutAt env N O₁ o₂' deep' atLimit')
    (hdeep : ∀ x, deep' x → x <:+ r) (hrest : o₂'.2 <:+ r) :
    CutAt env N O₁ o₂' (fun x => deep x ∨ deep' x) (fun x => atLimit x ∨ atLimit' x) := by
  rcases h with ⟨hnone, h₁⟩ | ⟨r₀, hat, hdeep₀, hrest₀, h₁⟩
  · exact (hok h₁).mono (fun x hx => hx.resolve_left (hnone x)) fun x hx => .inr hx
  · refine .inr ⟨r₀, .inl hat, fun x hx => ?_, hrest.trans hrest₀, herr _ _ h₁⟩
    exact hx.elim (hdeep₀ x) fun hx => (hdeep x hx).trans hrest₀

/-- A run that goes on from where its first part succeeded without the limit. -/
theorem andThen_ok {k₁ : α → List (Token π) → Except (ParseError π) β × List (Token π)}
    {o₂' : Except (ParseError π) β × List (Token π)} {a : α} {r : List (Token π)}
    (h : CutAt env N o₁ (.ok a, r) deep atLimit) (hk : CutAt env N (k₁ a r) o₂' deep' atLimit')
    (hdeep : ∀ x, deep' x → x <:+ r) (hrest : o₂'.2 <:+ r) :
    CutAt env N (andThen o₁ k₁) o₂' (fun x => deep x ∨ deep' x)
      (fun x => atLimit x ∨ atLimit' x) :=
  h.first (fun _ _ h₁ => by rw [h₁, Grammar.andThen_error])
    (fun h₁ => by rwa [h₁, Grammar.andThen_ok]) hdeep hrest

/-- A run whose first part is followed by steps that call nothing. -/
theorem andThen_pure {k : α → List (Token π) → Except (ParseError π) β × List (Token π)}
    (h : CutAt env N o₁ o₂ deep atLimit) (hk : ∀ a r, (k a r).2 <:+ r) :
    CutAt env N (andThen o₁ k) (andThen o₂ k) deep atLimit := by
  rcases h with ⟨hnone, rfl⟩ | ⟨r₀, hat, hdeep, hrest, rfl⟩
  · exact .inl ⟨hnone, rfl⟩
  · refine .inr ⟨r₀, hat, hdeep, ?_, rfl⟩
    obtain ⟨_ | a, r⟩ := o₂
    · exact hrest
    · exact (hk a r).trans hrest

end CutAt

/-- A call that is not itself a condition past the limit is cut as the calls it makes are. -/
theorem Cut.of_calls {deep atLimit : List (Token π) → Prop}
    (hc : ∀ D x, N ≤ D → c ≠ .ternary D x)
    (h : CutAt env N (c.run (env.withLimit (some N))) (c.run (env.withLimit none)) deep atLimit)
    (hdeep : ∀ y, Calls (env.withLimit none) c y → ∀ x, Deep env N y x → deep x)
    (hat : ∀ x, atLimit x → AtLimit env N c x) : Cut env N c :=
  h.mono (fun x hx => by
    obtain ⟨y, hy, hx⟩ := hx.exists_calls (hc · x)
    exact hdeep y hy x hx) hat

/-- A call that calls nothing does not depend on the limit. -/
theorem Cut.leaf (hc : ∀ D x, N ≤ D → c ≠ .ternary D x)
    (hrun : c.run (env.withLimit (some N)) = c.run (env.withLimit none))
    (hcalls : ∀ y, ¬ Calls (env.withLimit none) c y) : Cut env N c := by
  have h : CutAt env N (c.run (env.withLimit (some N))) (c.run (env.withLimit none))
      (fun _ => False) (fun _ => False) := by
    rw [hrun]
    exact CutAt.same _
  exact Cut.of_calls hc h (fun y hy => absurd hy (hcalls y)) fun _ h => h.elim

/-- A call whose run is a first call, then steps that call nothing. -/
theorem Cut.then_pure {s : Call π}
    {k : Expr π → List (Token π) → Except (ParseError π) (Expr π) × List (Token π)}
    (hc : ∀ D x, N ≤ D → c ≠ .ternary D x)
    (hrun : ∀ limit, c.run (env.withLimit limit) = andThen (s.run (env.withLimit limit)) k)
    (hk : ∀ a r, (k a r).2 <:+ r) (hs : Calls (env.withLimit none) c s)
    (hcalls : ∀ y, Calls (env.withLimit none) c y → y = s) (ih : Cut env N s) : Cut env N c := by
  have h : CutAt env N (c.run (env.withLimit (some N))) (c.run (env.withLimit none))
      (Deep env N s) (AtLimit env N s) := by
    rw [hrun, hrun]
    exact ih.andThen_pure hk
  exact Cut.of_calls hc h (fun y hy x hx => hcalls y hy ▸ hx) fun x hx => hx.head hs

/-- A call whose run is a first call, then a second one from where the first left off: the
loops of the comma and binary levels. -/
theorem Cut.seq {s : Call π} {t : Expr π → List (Token π) → Call π}
    (hc : ∀ D x, N ≤ D → c ≠ .ternary D x)
    (hrun : ∀ limit, c.run (env.withLimit limit) =
      andThen (s.run (env.withLimit limit)) fun a r => (t a r).run (env.withLimit limit))
    (htok : ∀ a r, (t a r).tokens = r) (hs : Calls (env.withLimit none) c s)
    (ht : ∀ a r, s.run (env.withLimit none) = (.ok a, r) → Calls (env.withLimit none) c (t a r))
    (hcalls : ∀ y, Calls (env.withLimit none) c y →
      y = s ∨ ∃ a r, s.run (env.withLimit none) = (.ok a, r) ∧ y = t a r)
    (ih : ∀ y, Calls (env.withLimit none) c y → Cut env N y) : Cut env N c := by
  have ihs := ih s hs
  rcases hres : s.run (env.withLimit none) with ⟨_ | a, r⟩
  · -- the first call fails without the limit: the second is never made
    have h : CutAt env N (c.run (env.withLimit (some N))) (c.run (env.withLimit none))
        (Deep env N s) (AtLimit env N s) := by
      rw [hrun, hrun, hres]
      rw [Cut, hres] at ihs
      exact ihs.andThen_error
    refine Cut.of_calls hc h (fun y hy x hx => ?_) fun x hx => hx.head hs
    rcases hcalls y hy with rfl | ⟨a', r', h, -⟩
    · exact hx
    · rw [hres] at h
      cases h
  · have iht := ih _ (ht a r hres)
    have h : CutAt env N (c.run (env.withLimit (some N))) (c.run (env.withLimit none))
        (fun x => Deep env N s x ∨ Deep env N (t a r) x)
        (fun x => AtLimit env N s x ∨ AtLimit env N (t a r) x) := by
      rw [hrun, hrun, hres, andThen_ok]
      rw [Cut, hres] at ihs
      have hrest := Call.rest_suffix (env.withLimit none) (t a r)
      rw [htok] at hrest
      exact ihs.andThen_ok iht (fun x hx => htok a r ▸ hx.suffix) hrest
    refine Cut.of_calls hc h (fun y hy x hx => ?_) fun x hx => ?_
    · rcases hcalls y hy with rfl | ⟨a', r', h, rfl⟩
      · exact .inl hx
      · rw [hres] at h
        cases h
        exact .inr hx
    · exact hx.elim (fun hx => hx.head hs) fun hx => hx.head (ht a r hres)

/-! ### Each grammar function is cut as its calls are -/

section Steps

variable {d : Nat} {ts : List (Token π)}

theorem cut_comma (ih : ∀ y, Calls (env.withLimit none) (.comma d ts) y → Cut env N y) :
    Cut env N (.comma d ts) := by
  refine Cut.seq (s := .ternary d ts) (t := .commaTail d) (fun _ _ _ => nofun)
    (fun _ => comma_view _ d ts) (fun _ _ => rfl) .comma_ternary (fun _ _ h => .comma_tail h) ?_ ih
  intro y hy
  cases hy with
  | comma_ternary => exact .inl rfl
  | comma_tail h => exact .inr ⟨_, _, h, rfl⟩

theorem cut_commaTail {lhs : Expr π}
    (ih : ∀ y, Calls (env.withLimit none) (.commaTail d lhs ts) y → Cut env N y) :
    Cut env N (.commaTail d lhs ts) := by
  cases ts with
  | nil =>
    refine Cut.leaf (fun _ _ _ => nofun) ?_ fun y hy => nomatch hy
    show (commaTail _ d lhs []).view = (commaTail _ d lhs []).view
    rw [commaTail_nil, commaTail_nil]
  | cons tok rest =>
    by_cases hk : tok.kind = .comma
    · refine Cut.seq (s := .ternary d rest) (t := fun rhs r => .commaTail d (.binary lhs tok rhs) r)
        (fun _ _ _ => nofun) (fun _ => commaTail_comma _ d lhs hk rest) (fun _ _ => rfl)
        (.commaTail_ternary hk) (fun _ _ h => .commaTail_tail hk h) ?_ ih
      intro y hy
      cases hy with
      | commaTail_ternary _ => exact .inl rfl
      | commaTail_tail _ h => exact .inr ⟨_, _, h, rfl⟩
    · have hstop : ∀ limit, (commaTail (env.withLimit limit) d lhs (tok :: rest)).view =
          (.ok lhs, tok :: rest) := fun _ => commaTail_stop _ d lhs (by simpa using hk)
      refine Cut.leaf (fun _ _ _ => nofun) ((hstop _).trans (hstop _).symm) fun y hy => ?_
      cases hy <;> contradiction

/-- A condition at the limit is blocked: the run stops there, before the token at the cursor. -/
theorem cut_ternary_blocked : Cut env N (.ternary N ts) := by
  refine .inr ⟨ts, Relation.ReflTransGen.refl, fun x hx => hx.suffix, Call.rest_suffix _ _, ?_⟩
  show (ternary (env.withLimit (some N)) N ts).view = _
  rw [ternary_blocked _ N (Env.blocks_withLimit_self env N), Env.peek_withLimit]

theorem cut_elseBranch {cond th : Expr π} {r2 : List (Token π)}
    (hT : ∀ k r3, (expect env .colon r2).view = (.ok k, r3) → Cut env N (.ternary (d + 1) r3)) :
    CutAt env N (elseBranch (env.withLimit (some N)) d cond th r2)
      (elseBranch (env.withLimit none) d cond th r2)
      (fun x => ∃ k r3, (expect env .colon r2).view = (.ok k, r3) ∧
        Deep env N (.ternary (d + 1) r3) x)
      (fun x => ∃ k r3, (expect env .colon r2).view = (.ok k, r3) ∧
        AtLimit env N (.ternary (d + 1) r3) x) := by
  simp only [elseBranch, expect_withLimit]
  rcases hexp : (expect env .colon r2).view with ⟨_ | k, r3⟩
  · -- the `:` is missing: the run stops there with or without the limit
    exact (CutAt.same _).mono (fun x ⟨_, _, h, _⟩ => by cases h) fun _ (h : False) => h.elim
  · have hT' := hT k r3 hexp
    simp only [Cut, Call.run] at hT'
    simp only [Grammar.andThen_ok]
    refine (hT'.andThen_pure fun _ r4 => List.suffix_refl r4).mono ?_ fun x hx => ⟨k, r3, rfl, hx⟩
    rintro x ⟨k', r3', h, hx⟩
    cases h
    exact hx

/-- The branches of a condition are cut as its then-branch is, and once that and the `:` are
read, as its else-branch is. -/
theorem cut_branches {r1 : List (Token π)} {cond : Expr π} (hC : Cut env N (.comma (d + 1) r1))
    (hT : ∀ th r2 k r3, (comma (env.withLimit none) (d + 1) r1).view = (.ok th, r2) →
      (expect env .colon r2).view = (.ok k, r3) → Cut env N (.ternary (d + 1) r3)) :
    CutAt env N (branches (env.withLimit (some N)) d cond r1)
      (branches (env.withLimit none) d cond r1) (InBranches env d r1 (Deep env N))
      (InBranches env d r1 (AtLimit env N)) := by
  simp only [Cut, Call.run] at hC
  unfold branches InBranches
  rcases hcres : (comma (env.withLimit none) (d + 1) r1).view with ⟨_ | th, r2⟩
  · -- the then-branch fails without the limit
    rw [hcres] at hC
    exact hC.andThen_error.mono (fun x hx => hx.elim id fun ⟨_, _, _, _, h, _⟩ => by cases h)
      fun x hx => .inl hx
  · rw [hcres] at hC
    rw [Grammar.andThen_ok]
    refine (hC.andThen_ok (cut_elseBranch fun k r3 he => hT th r2 k r3 hcres he)
      (fun x ⟨k, r3, he, hx⟩ => hx.suffix.trans (Parsed.suffix_of_view he))
      (elseBranch_rest_suffix _ _ _ _ _)).mono ?_ ?_
    · rintro x (hx | ⟨th', r2', k, r3, h, he, hx⟩)
      · exact .inl hx
      · cases h
        exact .inr ⟨k, r3, he, hx⟩
    · rintro x (hx | ⟨k, r3, he, hx⟩)
      · exact .inl hx
      · exact .inr ⟨th, r2, k, r3, rfl, he, hx⟩

/-- An open condition is cut as its binary expression is, and after a `?` as its branches are. -/
theorem cut_ternary_open (hlt : d < N)
    (ih : ∀ y, Calls (env.withLimit none) (.ternary d ts) y → Cut env N y) :
    Cut env N (.ternary d ts) := by
  have hL := env.blocks_withLimit_of_lt hlt
  have hU : (env.withLimit none).blocks d = none := rfl
  have hc : ∀ D x, N ≤ D → Call.ternary d ts ≠ .ternary D x := fun D x hD h => by
    cases h
    omega
  have hB := ih _ (.ternary_binary hU)
  have hatB : ∀ x, AtLimit env N (.binary (d + 1) .equality ts) x →
      AtLimit env N (.ternary d ts) x := fun x hx => hx.head (.ternary_binary hU)
  simp only [Cut, Call.run] at hB
  rcases hres : (binary (env.withLimit none) (d + 1) .equality ts).view with ⟨_ | cond, r⟩
  · -- the binary expression fails without the limit, and the condition with it
    rw [hres] at hB
    have h : CutAt env N (ternary (env.withLimit (some N)) d ts).view
        (ternary (env.withLimit none) d ts).view (Deep env N (.binary (d + 1) .equality ts))
        (AtLimit env N (.binary (d + 1) .equality ts)) := by
      rw [ternary_open _ d hL, ternary_open _ d hU, hres]
      exact hB.andThen_error
    refine Cut.of_calls hc h (fun y hy x hx => ?_) hatB
    cases hy with
    | ternary_binary _ => exact hx
    | ternary_then _ hb _ => rw [hres] at hb; cases hb
    | ternary_else _ hb _ _ _ => rw [hres] at hb; cases hb
  · -- what follows the binary expression decides what else the condition calls
    rw [hres] at hB
    have hstop : ∀ {o : Except (ParseError π) (Expr π) × List (Token π)},
        (∀ E : Env π, E.blocks d = none → (binary E (d + 1) .equality ts).view = (.ok cond, r) →
          (ternary E d ts).view = o) → o.2 <:+ r →
        (∀ c q r1, (cond, r) = (c, q :: r1) → q.kind ≠ .question) → Cut env N (.ternary d ts) := by
      intro o ho hor hnq
      have h : CutAt env N (ternary (env.withLimit (some N)) d ts).view
          (ternary (env.withLimit none) d ts).view
          (fun x => Deep env N (.binary (d + 1) .equality ts) x ∨ False)
          (fun x => AtLimit env N (.binary (d + 1) .equality ts) x ∨ False) := by
        rw [ho _ hU hres]
        exact hB.first (fun _ _ hb => ternary_error _ d hL hb)
          (fun hb => by rw [ho _ hL hb]; exact CutAt.same _) (fun _ h => h.elim) hor
      refine Cut.of_calls hc h (fun y hy x hx => ?_) fun x hx => hx.elim (hatB x) False.elim
      cases hy with
      | ternary_binary _ => exact .inl hx
      | ternary_then _ hb hq => rw [hres] at hb; exact absurd hq (hnq _ _ _ (by cases hb; rfl))
      | ternary_else _ hb hq _ _ => rw [hres] at hb; exact absurd hq (hnq _ _ _ (by cases hb; rfl))
    cases r with
    | nil =>
      exact hstop (fun E hE hb => ternary_end E d hE hb) (List.suffix_refl _) fun _ _ _ h => by
        cases h
    | cons q r1 =>
      by_cases hq : q.kind = .question
      · -- a `?`: the then-branch and the else-branch
        have hbranches : CutAt env N (branches (env.withLimit (some N)) d cond r1)
            (branches (env.withLimit none) d cond r1) (InBranches env d r1 (Deep env N))
            (InBranches env d r1 (AtLimit env N)) :=
          cut_branches (ih _ (.ternary_then hU hres hq)) fun _ _ _ _ hc he =>
            ih _ (.ternary_else hU hres hq hc he)
        have h : CutAt env N (ternary (env.withLimit (some N)) d ts).view
            (ternary (env.withLimit none) d ts).view
            (fun x => Deep env N (.binary (d + 1) .equality ts) x ∨
              InBranches env d r1 (Deep env N) x)
            (fun x => AtLimit env N (.binary (d + 1) .equality ts) x ∨
              InBranches env d r1 (AtLimit env N) x) := by
          rw [ternary_question _ d hU hres hq]
          refine hB.first (fun _ _ hb => ternary_error _ d hL hb)
            (fun hb => by rw [ternary_question _ d hL hb hq]; exact hbranches) ?_
            ((andThen_rest_suffix fun _ _ => elseBranch_rest_suffix _ _ _ _ _).trans
              (List.suffix_cons _ _))
          rintro x (hx | ⟨_, r2, _, r3, hc, he, hx⟩)
          · exact hx.suffix.trans (List.suffix_cons _ _)
          · exact hx.suffix.trans ((Parsed.suffix_of_view he).trans
              ((Parsed.suffix_of_view hc).trans (List.suffix_cons _ _)))
        refine Cut.of_calls hc h (fun y hy x hx => ?_) ?_
        · cases hy with
          | ternary_binary _ => exact .inl hx
          | ternary_then _ hb _ =>
            rw [hres] at hb
            cases hb
            exact .inr (.inl hx)
          | ternary_else _ hb _ hc he =>
            rw [hres] at hb
            cases hb
            exact .inr (.inr ⟨_, _, _, _, hc, he, hx⟩)
        · rintro x (hx | hx | ⟨_, _, _, _, hc, he, hx⟩)
          · exact hatB x hx
          · exact hx.head (.ternary_then hU hres hq)
          · exact hx.head (.ternary_else hU hres hq hc he)
      · exact hstop (fun E hE hb => ternary_not_question E d hE hb hq) (List.suffix_refl _)
          fun _ _ _ h => by cases h; exact hq

theorem cut_binary {level : BinaryLevel}
    (ih : ∀ y, Calls (env.withLimit none) (.binary d level ts) y → Cut env N y) :
    Cut env N (.binary d level ts) := by
  refine Cut.seq (s := .operand d level ts) (t := .binaryTail d level) (fun _ _ _ => nofun)
    (fun _ => binary_view _ d level ts) (fun _ _ => rfl) .binary_operand
    (fun _ _ h => .binary_tail h) ?_ ih
  intro y hy
  cases hy with
  | binary_operand => exact .inl rfl
  | binary_tail h => exact .inr ⟨_, _, h, rfl⟩

theorem cut_binaryTail {level : BinaryLevel} {lhs : Expr π}
    (ih : ∀ y, Calls (env.withLimit none) (.binaryTail d level lhs ts) y → Cut env N y) :
    Cut env N (.binaryTail d level lhs ts) := by
  cases ts with
  | nil =>
    refine Cut.leaf (fun _ _ _ => nofun) ?_ fun y hy => nomatch hy
    show (binaryTail _ d level lhs []).view = (binaryTail _ d level lhs []).view
    rw [binaryTail_nil, binaryTail_nil]
  | cons tok rest =>
    by_cases hk : tok.kind ∈ level.operators
    · refine Cut.seq (s := .operand d level rest)
        (t := fun rhs r => .binaryTail d level (.binary lhs tok rhs) r) (fun _ _ _ => nofun)
        (fun _ => binaryTail_operator _ d level lhs hk rest) (fun _ _ => rfl)
        (.binaryTail_operand hk) (fun _ _ h => .binaryTail_tail hk h) ?_ ih
      intro y hy
      cases hy with
      | binaryTail_operand _ => exact .inl rfl
      | binaryTail_tail _ h => exact .inr ⟨_, _, h, rfl⟩
    · have hstop : ∀ limit, (binaryTail (env.withLimit limit) d level lhs (tok :: rest)).view =
          (.ok lhs, tok :: rest) := fun _ => binaryTail_stop _ d level lhs (by simpa using hk)
      refine Cut.leaf (fun _ _ _ => nofun) ((hstop _).trans (hstop _).symm) fun y hy => ?_
      cases hy <;> contradiction

/-- A call whose run is that of the one call it makes. -/
theorem Cut.forward {s : Call π} (hc : ∀ D x, N ≤ D → c ≠ .ternary D x)
    (hrun : ∀ limit, c.run (env.withLimit limit) = s.run (env.withLimit limit))
    (hs : Calls (env.withLimit none) c s)
    (hcalls : ∀ y, Calls (env.withLimit none) c y → y = s) (ih : Cut env N s) : Cut env N c :=
  Cut.then_pure hc (fun _ => by rw [hrun, andThen_return]) (fun _ r => List.suffix_refl r) hs
    hcalls ih

theorem cut_operand {level : BinaryLevel}
    (ih : ∀ y, Calls (env.withLimit none) (.operand d level ts) y → Cut env N y) :
    Cut env N (.operand d level ts) := by
  have hone : ∀ y y', Calls (env.withLimit none) (.operand d level ts) y' →
      Calls (env.withLimit none) (.operand d level ts) y → y = y' := by
    intro y y' hy' hy
    cases hy <;> cases hy' <;> rfl
  cases level with
  | equality =>
    exact Cut.forward (s := .binary d .comparison ts) (fun _ _ _ => nofun)
      (fun _ => congrArg Parsed.view (operand_equality _ d ts))
      .operand_equality (fun y => hone y _ .operand_equality) (ih _ .operand_equality)
  | comparison =>
    exact Cut.forward (s := .binary d .term ts) (fun _ _ _ => nofun)
      (fun _ => congrArg Parsed.view (operand_comparison _ d ts)) .operand_comparison
      (fun y => hone y _ .operand_comparison) (ih _ .operand_comparison)
  | term =>
    exact Cut.forward (s := .binary d .factor ts) (fun _ _ _ => nofun)
      (fun _ => congrArg Parsed.view (operand_term _ d ts))
      .operand_term (fun y => hone y _ .operand_term) (ih _ .operand_term)
  | factor =>
    exact Cut.forward (s := .unary d ts) (fun _ _ _ => nofun)
      (fun _ => congrArg Parsed.view (operand_factor _ d ts))
      .operand_factor (fun y => hone y _ .operand_factor) (ih _ .operand_factor)

theorem cut_unary (ih : ∀ y, Calls (env.withLimit none) (.unary d ts) y → Cut env N y) :
    Cut env N (.unary d ts) := by
  refine Cut.then_pure (s := .primary d (prefixRun ts).2.1) (fun _ _ _ => nofun)
    (fun _ => unary_view _ d ts) (fun _ r => List.suffix_refl r) .unary_primary ?_
    (ih _ .unary_primary)
  intro y hy
  cases hy
  rfl

theorem cut_primary (ih : ∀ y, Calls (env.withLimit none) (.primary d ts) y → Cut env N y) :
    Cut env N (.primary d ts) := by
  cases ts with
  | nil =>
    refine Cut.leaf (fun _ _ _ => nofun) ?_ fun y hy => nomatch hy
    show (primary _ d []).view = (primary _ d []).view
    rw [primary_nil, primary_nil]
    rfl
  | cons tok rest =>
    cases hl : isLiteralKind tok.kind
    · by_cases hp : tok.kind = .leftParen
      · refine Cut.then_pure (s := .comma d rest)
          (k := fun inner r => andThen (expect env .rightParen r).view fun close r' =>
            (.ok (.grouping inner ⟨tok.start, close.stop⟩), r'))
          (fun _ _ _ => nofun) (fun _ => primary_group _ d hl hp rest) (fun _ r => ?_)
          (.primary_group hp) ?_
          (ih _ (.primary_group hp))
        · -- the closing parenthesis is taken from where the expression inside stopped
          rcases hexp : (expect env .rightParen r).view with ⟨_ | close, r'⟩
          · exact Parsed.suffix_of_view hexp
          · exact Parsed.suffix_of_view hexp
        · intro y hy
          cases hy
          rfl
      · have hother : ∀ limit, (primary (env.withLimit limit) d (tok :: rest)).view =
            (.error (.expectedExpression tok), tok :: rest) :=
          fun _ => primary_other _ d hl hp rest
        refine Cut.leaf (fun _ _ _ => nofun) ((hother _).trans (hother _).symm) fun y hy => ?_
        cases hy
        contradiction
    · have hlit : ∀ limit, (primary (env.withLimit limit) d (tok :: rest)).view =
          (.ok (.literal (tok.literal.getD .nil) ⟨tok.start, tok.stop⟩), rest) :=
        fun _ => primary_literal _ d hl rest
      refine Cut.leaf (fun _ _ _ => nofun) ((hlit _).trans (hlit _).symm) fun y hy => ?_
      cases hy
      simp_all [isLiteralKind]

end Steps

/-- Every call within the limit is its unlimited run cut short at the first condition past the
limit: by induction over the calls, each grammar function being cut as its calls are. -/
theorem cut_of_depth_le (c : Call π) (hd : c.depth ≤ N) : Cut env N c := by
  refine Call.induction (env.withLimit none) (P := fun c => c.depth ≤ N → Cut env N c)
    (fun c ih hd => ?_) c hd
  -- a call that opens no condition passes its depth on to the calls it makes
  have hsame : c.opens = 0 → ∀ y, Calls (env.withLimit none) c y → Cut env N y :=
    fun h0 y hy => ih y hy (by rw [hy.depth_eq, h0]; exact hd)
  cases c with
  | comma d ts => exact cut_comma (hsame rfl)
  | commaTail d lhs ts => exact cut_commaTail (hsame rfl)
  | ternary d ts =>
    rcases Nat.lt_or_eq_of_le hd with hlt | rfl
    · exact cut_ternary_open hlt fun y hy => ih y hy (by rw [hy.depth_eq]; exact hlt)
    · exact cut_ternary_blocked
  | binary d level ts => exact cut_binary (hsame rfl)
  | binaryTail d level lhs ts => exact cut_binaryTail (hsame rfl)
  | operand d level ts => exact cut_operand (hsame rfl)
  | unary d ts => exact cut_unary (hsame rfl)
  | primary d ts => exact cut_primary (hsame rfl)

/-- A whole parse under the limit is the unlimited parse cut short, as its expression is: the
end of input after it is read the same way under both. -/
theorem parseAll_cut (ts : List (Token π)) :
    CutAt env N (parseAll (env.withLimit (some N)) 0 ts).view
      (parseAll (env.withLimit none) 0 ts).view (Deep env N (.comma 0 ts))
      (AtLimit env N (.comma 0 ts)) := by
  rw [parseAll_view, parseAll_view]
  simp only [expect_withLimit]
  exact (cut_of_depth_le (.comma 0 ts) (Nat.zero_le N)).andThen_pure fun _ _ =>
    andThen_rest_suffix fun _ r' => List.suffix_refl r'

end Cut

end Grammar

open Grammar Sentence

variable {π : Type}

/-! ## Parsing under a limit -/

section Limit

variable [Coord π]

/-- Parse a list of tokens as `parseTokens` does, under a given nesting limit, or none. -/
def parseTokensWithin (limit : Option Nat) (tokens : List (Token π)) :
    Except (ParseError π) (Expr π) :=
  let ts := dropComments tokens
  (parseAll (Env.ofTokens ts limit) 0 ts).result

theorem parseTokens_eq_within (tokens : List (Token π)) :
    parseTokens tokens = parseTokensWithin (some maxNesting) tokens := rfl

/-- The unlimited parse of `tokens` enters a condition at the tokens `r`, with `n` conditions
open around it: a path of calls leads there from the start of the parse with `n` conditions on
it. -/
def OpensCondition (tokens r : List (Token π)) (n : Nat) : Prop :=
  ∃ D, Chain (Env.ofTokens (dropComments tokens) none) (.comma 0 (dropComments tokens))
    (.ternary D r) n

/-- The conditions open around a condition are the depth it is given. -/
theorem opensCondition_iff {tokens r : List (Token π)} {n : Nat} :
    OpensCondition tokens r n ↔
      Reaches (Env.ofTokens (dropComments tokens) none) (.comma 0 (dropComments tokens))
        (.ternary n r) := by
  constructor
  · rintro ⟨D, h⟩
    have hD := h.depth_eq
    simp only [Call.depth, Nat.zero_add] at hD
    exact hD ▸ h.reaches
  · intro h
    obtain ⟨m, hm⟩ := Chain.exists_of_reaches h
    have hn := hm.depth_eq
    simp only [Call.depth, Nat.zero_add] at hn
    subst hn
    exact ⟨_, hm⟩

/-- The parse under the limit `N` is the unlimited parse cut short where that one first opens a
condition with `N` or more open around it. -/
theorem parseTokensWithin_cutAt (N : Nat) (tokens : List (Token π)) :
    CutAt (Env.ofTokens (dropComments tokens) none) N
      ((parseTokensWithin (some N) tokens),
        (parseAll (Env.ofTokens (dropComments tokens) (some N)) 0 (dropComments tokens)).rest)
      ((parseTokensWithin none tokens), (parseAll (Env.ofTokens (dropComments tokens) none) 0
        (dropComments tokens)).rest)
      (fun r => ∃ n, N ≤ n ∧ OpensCondition tokens r n) (fun r => OpensCondition tokens r N) :=
  (@parseAll_cut π (Env.ofTokens (dropComments tokens) none) N (dropComments tokens)).mono
    (fun _ ⟨n, hn, h⟩ => ⟨n, hn, opensCondition_iff.1 h⟩) fun _ h => opensCondition_iff.2 h

/-- The unlimited parse never stops at a nesting error. -/
theorem parseTokensWithin_none_shallow (tokens : List (Token π)) :
    Shallow (parseTokensWithin none tokens) := by
  show Shallow (parseAll (Env.ofTokens (dropComments tokens) none) 0 (dropComments tokens)).view.1
  rw [parseAll_view]
  exact (Call.run_shallow rfl (.comma 0 _)).andThen fun _ _ _ =>
    (expect_shallow _ _).andThen fun _ _ _ => shallow_ok _

end Limit

/-! ## Two families at the limit of 256 -/

namespace Sentence

theorem Binary.ofPrimary {ts : List (Token π)} {e : Expr π} {n : Nat} (h : Primary ts e n) :
    Binary .equality ts e n :=
  .single (.equality (.single (.comparison (.single (.term (.single (.factor (.primary h))))))))

theorem Ternary.ofPrimary {ts : List (Token π)} {e : Expr π} {n : Nat} (h : Primary ts e n) :
    Ternary ts e (n + 1) :=
  .plain (Binary.ofPrimary h)

/-- `n` opening parentheses, a literal and `n` closing ones nest `n + 1` conditions. -/
theorem groups_sentence {o l c : Token π} (ho : o.kind = .leftParen)
    (hl : isLiteralKind l.kind = true) (hc : c.kind = .rightParen) :
    ∀ n, ∃ e, Comma (List.replicate n o ++ l :: List.replicate n c) e (n + 1)
  | 0 => ⟨_, .single (Ternary.literal hl)⟩
  | n + 1 => by
    obtain ⟨e, he⟩ := groups_sentence ho hl hc n
    have hsplit : List.replicate (n + 1) o ++ l :: List.replicate (n + 1) c =
        o :: ((List.replicate n o ++ l :: List.replicate n c) ++ [c]) := by
      have hclose : List.replicate (n + 1) c = List.replicate n c ++ [c] := List.replicate_succ'
      rw [List.replicate_succ, hclose]
      simp
    rw [hsplit]
    exact ⟨_, .single (Ternary.ofPrimary (.group ho he hc))⟩

/-- `m` times a literal, `?`, a literal and `:`, then a literal: each condition is the
else-branch of the one before, so `m + 1` conditions nest. -/
theorem chain_sentence {a q b k z : Token π} (ha : isLiteralKind a.kind = true)
    (hq : q.kind = .question) (hb : isLiteralKind b.kind = true) (hk : k.kind = .colon)
    (hz : isLiteralKind z.kind = true) :
    ∀ m, ∃ e, Ternary ((List.replicate m [a, q, b, k]).flatten ++ [z]) e (m + 1)
  | 0 => ⟨_, Ternary.literal hz⟩
  | m + 1 => by
    obtain ⟨e, he⟩ := chain_sentence ha hq hb hk hz m
    have hsplit : (List.replicate (m + 1) [a, q, b, k]).flatten ++ [z] =
        [a] ++ q :: ([b] ++ k :: ((List.replicate m [a, q, b, k]).flatten ++ [z])) := by
      simp [List.replicate_succ]
    have hnest : max 0 (max 1 (m + 1)) + 1 = m + 1 + 1 := by omega
    rw [hsplit, ← hnest]
    exact ⟨_, .cond (Binary.ofPrimary (.literal ha)) hq (.single (Ternary.literal hb)) hk he⟩

variable [Coord π]

/-- A sentence without comments parses exactly when it nests at most `maxNesting` conditions. -/
theorem Comma.parseTokens_ok_iff {ts : List (Token π)} {e : Expr π} {n : Nat} (h : Comma ts e n)
    (hcom : ∀ t ∈ ts, t.kind ≠ .comment) : (∃ e', parseTokens ts = .ok e') ↔ n ≤ maxNesting := by
  have hdrop : dropComments ts = ts := List.filter_eq_self.2 fun t ht => by simpa using hcom t ht
  have hparse : parseTokens ts =
      (parseAll (Env.ofTokens ts (some maxNesting)) 0 (ts ++ [])).view.1 := by
    rw [List.append_nil]
    show (parseAll (Env.ofTokens (dropComments ts) (some maxNesting)) 0
      (dropComments ts)).result = _
    rw [hdrop]
    rfl
  have hend : ((Env.ofTokens ts (some maxNesting)).peek []).kind = .eof := endTokenAfter_kind ts
  have hfits : ∀ m, (Env.ofTokens ts (some maxNesting)).Fits 0 m ↔ m ≤ maxNesting := fun m => by
    rw [Env.fits_iff_of_limit rfl, Nat.zero_add]
  constructor
  · rintro ⟨e', he'⟩
    refine Classical.byContradiction fun hn => ?_
    obtain ⟨t, N, r, hx⟩ := h.parseAll_deep ((hfits 0).2 (Nat.zero_le _))
      (fun hf => hn ((hfits n).1 hf)) hend
    rw [hparse, hx] at he'
    cases he'
  · intro hn
    exact ⟨e, by rw [hparse, h.parseAll_append ((hfits n).2 hn) hend]⟩

theorem kind_ne_comment_of_literal {k : TokenKind} (hk : isLiteralKind k = true) :
    k ≠ .comment := by
  rintro rfl
  cases hk

end Sentence

open Sentence

variable [Coord π]

/-- Groupings nested `n` deep around a literal parse exactly when `n ≤ 255`. -/
theorem parseTokens_groups {o l c : Token π} (ho : o.kind = .leftParen)
    (hl : isLiteralKind l.kind = true) (hc : c.kind = .rightParen) (n : Nat) :
    (∃ e, parseTokens (List.replicate n o ++ l :: List.replicate n c) = .ok e) ↔ n ≤ 255 := by
  obtain ⟨e, he⟩ := groups_sentence ho hl hc n
  rw [he.parseTokens_ok_iff, maxNesting]
  · omega
  · intro t ht
    simp only [List.mem_append, List.mem_replicate, List.mem_cons] at ht
    rcases ht with ⟨-, rfl⟩ | rfl | ⟨-, rfl⟩
    · rw [ho]; decide
    · exact kind_ne_comment_of_literal hl
    · rw [hc]; decide

/-- A chain of `m` conditions, each the else-branch of the one before, parses exactly when
`m ≤ 255`. -/
theorem parseTokens_chain {a q b k z : Token π} (ha : isLiteralKind a.kind = true)
    (hq : q.kind = .question) (hb : isLiteralKind b.kind = true) (hk : k.kind = .colon)
    (hz : isLiteralKind z.kind = true) (m : Nat) :
    (∃ e, parseTokens ((List.replicate m [a, q, b, k]).flatten ++ [z]) = .ok e) ↔ m ≤ 255 := by
  obtain ⟨e, he⟩ := chain_sentence ha hq hb hk hz m
  rw [(Comma.single he).parseTokens_ok_iff, maxNesting]
  · omega
  · intro t ht
    simp only [List.mem_append, List.mem_flatten, List.mem_replicate, List.mem_singleton] at ht
    rcases ht with ⟨l, ⟨-, rfl⟩, ht⟩ | rfl
    · simp only [List.mem_cons, List.not_mem_nil, or_false] at ht
      rcases ht with rfl | rfl | rfl | rfl
      · exact kind_ne_comment_of_literal ha
      · rw [hq]; decide
      · exact kind_ne_comment_of_literal hb
      · rw [hk]; decide
    · exact kind_ne_comment_of_literal hz

/-- The nesting limit only cuts a parse short. Under any limit `N` the parse of any list of
tokens gives what the unlimited parse gives, or a nesting error naming `N`. It gives the same
exactly when the unlimited parse never has more than `N` conditions open at once; otherwise its
error is found at the token at the cursor where the unlimited parse first opened a condition
inside `N` others, no condition that deep being entered before that point. Under the limit of
256, groupings nested `n` deep parse exactly when `n ≤ 255`, and so do chains of `m`
conditions, each the else-branch of the one before, when `m ≤ 255`. -/
theorem nesting_limit_cuts_short :
    (∀ (N : Nat) (tokens : List (Token π)),
      (parseTokensWithin (some N) tokens = parseTokensWithin none tokens ∨
        ∃ t, parseTokensWithin (some N) tokens = .error (.nestingTooDeep t N)) ∧
      (parseTokensWithin (some N) tokens = parseTokensWithin none tokens ↔
        ∀ r n, OpensCondition tokens r n → n + 1 ≤ N) ∧
      (∀ t M, parseTokensWithin (some N) tokens = .error (.nestingTooDeep t M) →
        M = N ∧ ∃ r₀, OpensCondition tokens r₀ N ∧
          (∀ r n, OpensCondition tokens r n → N ≤ n → r <:+ r₀) ∧
          t = (Env.ofTokens (dropComments tokens) none).peek r₀)) ∧
    (∀ (o l c : Token π) (n : Nat), o.kind = .leftParen → isLiteralKind l.kind = true →
      c.kind = .rightParen →
      ((∃ e, parseTokens (List.replicate n o ++ l :: List.replicate n c) = .ok e) ↔ n ≤ 255)) ∧
    (∀ (a q b k z : Token π) (m : Nat), isLiteralKind a.kind = true → q.kind = .question →
      isLiteralKind b.kind = true → k.kind = .colon → isLiteralKind z.kind = true →
      ((∃ e, parseTokens ((List.replicate m [a, q, b, k]).flatten ++ [z]) = .ok e) ↔
        m ≤ 255)) := by
  refine ⟨fun N tokens => ?_, fun _ _ _ n ho hl hc => parseTokens_groups ho hl hc n,
    fun _ _ _ _ _ m ha hq hb hk hz => parseTokens_chain ha hq hb hk hz m⟩
  have hshallow := parseTokensWithin_none_shallow tokens
  rcases parseTokensWithin_cutAt N tokens with ⟨hnone, heq⟩ | ⟨r₀, hat, hdeep, -, herr⟩
  · -- no condition past the limit: the same parse
    have hsame : parseTokensWithin (some N) tokens = parseTokensWithin none tokens :=
      congrArg Prod.fst heq
    refine ⟨.inl hsame, ⟨fun _ r n hr => ?_, fun _ => hsame⟩, fun t M h => ?_⟩
    · rcases Nat.lt_or_ge n N with hn | hn
      · exact hn
      · exact absurd ⟨n, hn, hr⟩ (hnone r)
    · rw [hsame] at h
      exact absurd rfl (hshallow _ h)
  · -- a nesting error where the first condition past the limit was entered
    have hcut : parseTokensWithin (some N) tokens =
        .error (.nestingTooDeep ((Env.ofTokens (dropComments tokens) none).peek r₀) N) :=
      congrArg Prod.fst herr
    refine ⟨.inr ⟨_, hcut⟩, ⟨fun h => ?_, fun h => ?_⟩, fun t M h => ?_⟩
    · rw [h] at hcut
      exact absurd rfl (hshallow _ hcut)
    · have := h r₀ N hat
      omega
    · rw [hcut] at h
      cases h
      exact ⟨rfl, r₀, hat, fun r n hr hn => hdeep r ⟨n, hn, hr⟩, rfl⟩

end ExprFront
