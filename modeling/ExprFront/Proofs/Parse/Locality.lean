import Mathlib.Control.Monad.Basic
import ExprFront.Proofs.Parse.Language
import ExprFront.Proofs.Parse.Lookahead
import ExprFront.Scan.Basic
/-!
# Where a failed parse stops

A parse that fails short of the nesting limit stops at the first token where the input stops
beginning a sentence: the tokens before it, followed by the end of input, could still be read,
and the same tokens followed by it could not. An error that wanted a token of some kind wanted
one that would go on with the tokens before it.

That the tokens before the stop can still be read is the completion every failed run carries
(`reads_all`). That the stop cannot is proved by contradiction: a sentence beginning so would be
read by the parser under no limit (`Comma.parseAll_append`), and the parser decides on the
tokens before the stop and on the stop alone (`parseAll_eq_of_lookahead`), so it would not have
failed there.

Main statement (`parseTokens_error_found`): the error of a failed parse names the token at the
position of the longest viable prefix of the readable tokens followed by their end.
-/

namespace ExprFront.Sentence

open Grammar

variable {π : Type}

/-! ## Viable prefixes -/

theorem IsViable.of_prefix {ks ks' : List TokenKind} (h : IsViable π ks) (hp : ks' <+: ks) :
    IsViable π ks' := by
  obtain ⟨s, hs, hks⟩ := h
  exact ⟨s, hs, hp.trans hks⟩

theorem Comma.isViable {ts : List (Token π)} {e : Expr π} {n : Nat} (h : Comma ts e n)
    {ks : List TokenKind} (hp : ks <+: ts.map (·.kind) ++ [.eof]) : IsViable π ks :=
  ⟨_, ⟨ts, e, n, h, rfl⟩, hp⟩

theorem IsSentence.eof_not_mem {s : List TokenKind} (h : IsSentence π s) : TokenKind.eof ∉ s := by
  obtain ⟨ts, e, n, hc, rfl⟩ := h
  intro hmem
  obtain ⟨t, ht, hk⟩ := List.mem_map.1 hmem
  exact hc.kind_ne_eof t ht hk

/-- A viable sequence that the end of input closes is a sentence. -/
theorem IsViable.isSentence_of_eof {ks : List TokenKind} (h : IsViable π (ks ++ [.eof])) :
    IsSentence π ks := by
  obtain ⟨s, hs, hp⟩ := h
  rcases List.prefix_concat_iff.1 hp with heq | hp
  · rw [(List.append_inj' heq rfl).1]
    exact hs
  · exact absurd (hp.subset (List.mem_append_right ks (List.mem_singleton_self _)))
      hs.eof_not_mem

/-- A viable sequence that ends in another kind begins a sentence. -/
theorem IsViable.prefix_of_ne_eof {ks : List TokenKind} {k : TokenKind}
    (h : IsViable π (ks ++ [k])) (hk : k ≠ .eof) : ∃ s, IsSentence π s ∧ ks ++ [k] <+: s := by
  obtain ⟨s, hs, hp⟩ := h
  rcases List.prefix_concat_iff.1 hp with heq | hp
  · exact absurd (List.singleton_inj.1 (List.append_inj' heq rfl).2) hk
  · exact ⟨s, hs, hp⟩

/-! ## What a failed parse has read -/

/-- A whole parse that fails short of the nesting limit has read tokens `p` that begin a sentence,
with no end of input among them, and stopped at the token after them. An error that wanted a kind
wanted one that goes on with `p`. -/
theorem parseAll_error_begins [Inhabited π] {env : Env π} (hend : env.atEnd.kind = .eof)
    (hd : env.Fits 0 0) {ts r : List (Token π)} {x : ParseError π}
    (hrun : (parseAll env 0 ts).view = (.error x, r)) (hx : x.kindName ≠ "NESTING_TOO_DEEP") :
    ∃ p, ts = p ++ r ∧ x.found = env.peek r ∧ (∀ t ∈ p, t.kind ≠ .eof) ∧
      IsViable π (p.map (·.kind)) ∧
      ∀ k t, x = .unexpectedToken k t → IsViable π (p.map (·.kind) ++ [k]) := by
  have hreads := (reads_all env hend).1 0 ts hd
  rw [parseAll_view] at hrun
  generalize (comma env 0 ts).view = o at hreads hrun
  obtain ⟨_ | e, r₀⟩ := o
  · -- the expression fails, and what it read can be completed
    rw [andThen_error] at hrun
    cases hrun
    obtain ⟨hfound, hcomplete⟩ := hreads
    obtain ⟨p, c, e, n, rfl, hp, hc⟩ := hcomplete hx
    refine ⟨p, rfl, hfound, fun t ht => hp.kind_ne_eof t (List.mem_append_left c ht),
      hp.isViable (by simp), fun k t hk => ?_⟩
    obtain ⟨u, c', rfl, hu⟩ := hc k t hk
    exact hp.isViable (by simp [hu])
  · -- the expression is read, and the end of input is not after it
    rw [andThen_ok] at hrun
    generalize he : (expect env .eof r₀).view = o' at hrun
    obtain ⟨_ | _, r'⟩ := o'
    · rw [andThen_error] at hrun
      cases hrun
      obtain ⟨rfl, rfl⟩ := expect_eq_error env he
      obtain ⟨p, n, rfl, hp, -⟩ := hreads
      refine ⟨p, rfl, rfl, hp.kind_ne_eof, hp.isViable (by simp), fun k t hk => ?_⟩
      cases hk
      exact hp.isViable (List.prefix_refl _)
    · cases hrun

/-- Cut where a run stopped, the readable tokens and their end are what the run read, the token
it stopped at, and more. -/
theorem terminated_eq_append [Coord π] {tokens p r : List (Token π)}
    (hts : dropComments tokens = p ++ r) (hp : ∀ t ∈ p, t.kind ≠ .eof) (limit : Option Nat) :
    ∃ rest, terminated tokens = p ++ (Env.ofTokens (dropComments tokens) limit).peek r :: rest := by
  have hpos : ∀ t ∈ p, (t.kind != .eof) = true := by simpa using hp
  have hread : readable tokens = p ++ r.takeWhile (fun t => t.kind != .eof) := by
    rw [readable, hts, List.takeWhile_append_of_pos hpos]
  have hdrop : (dropComments tokens).dropWhile (fun t => t.kind != .eof) =
      r.dropWhile (fun t => t.kind != .eof) := by
    rw [hts, List.dropWhile_append_of_pos hpos]
  cases r with
  | nil =>
    -- the made-up end of input
    refine ⟨[], ?_⟩
    rw [terminated, hread, readableEnd, hdrop]
    simp only [List.takeWhile_nil, List.dropWhile_nil, List.append_nil]
    rfl
  | cons t r' =>
    by_cases ht : t.kind = .eof
    · refine ⟨[], ?_⟩
      rw [terminated, hread, readableEnd, hdrop]
      simp [ht]
    · refine ⟨r'.takeWhile (fun t => t.kind != .eof) ++ [readableEnd tokens], ?_⟩
      rw [terminated, hread]
      simp [ht]

/-! ## The token a failed parse stops at -/

/-- A parse that stopped short of the nesting limit after `p` could not have gone on: `p`
followed by the token it stopped at begins no sentence. -/
theorem not_isViable_of_stop {env : Env π} (hend : env.atEnd.kind = .eof) (hd : env.Fits 0 0)
    {p r : List (Token π)} {x : ParseError π}
    (hrun : (parseAll env 0 (p ++ r)).view = (.error x, r))
    (hx : x.kindName ≠ "NESTING_TOO_DEEP") :
    ¬ IsViable π (p.map (·.kind) ++ [(env.peek r).kind]) := by
  intro hv
  by_cases hr : (env.peek r).kind = .eof
  · -- `p` is a sentence: the parse reads it, or stops at the limit
    rw [hr] at hv
    obtain ⟨σ, e, n, hσ, hkinds⟩ := hv.isSentence_of_eof
    obtain ⟨e', hp⟩ := hσ.exists_of_kinds_eq p hkinds.symm
    by_cases hfit : env.Fits 0 n
    · rw [hp.parseAll_append hfit hr] at hrun
      cases hrun
    · obtain ⟨t, N, r', hdeep⟩ := hp.parseAll_deep hd hfit hr
      rw [hrun] at hdeep
      cases hdeep
      exact hx rfl
  · -- a sentence goes on past the token found; without a limit the parse reads it
    obtain ⟨t, r', rfl⟩ : ∃ t r', r = t :: r' := by
      cases r with
      | nil => exact absurd hend hr
      | cons t r' => exact ⟨t, r', rfl⟩
    rw [Env.peek_cons] at hv hr
    obtain ⟨_, ⟨σ, e, n, hσ, rfl⟩, K, hK⟩ := hv.prefix_of_ne_eof hr
    rw [List.append_assoc, List.singleton_append] at hK
    obtain ⟨u₁, u, rfl, hu₁, hu⟩ := List.map_eq_append_iff.1 hK.symm
    obtain ⟨t', u₂, rfl, ht', -⟩ := List.map_eq_cons_iff.1 hu
    obtain ⟨e', hL⟩ := hσ.exists_of_kinds_eq (p ++ t :: u₂) (by simp [hu₁, ht'])
    let free : Env π := ⟨env.atEnd, none⟩
    have hok : (parseAll free 0 ((p ++ t :: u₂) ++ [])).view = (.ok e', []) :=
      hL.parseAll_append (Env.fits_none rfl) hend
    rw [List.append_nil] at hok
    have hsame : (parseAll free 0 (p ++ ([t] ++ u₂))).view = (.error x, [t] ++ u₂) :=
      parseAll_eq_of_lookahead env free (fun _ _ => rfl) (List.cons_ne_nil t []) hrun
        (fun y hy => by cases hy; exact hx)
    rw [List.singleton_append, hok] at hsame
    cases hsame

/-- When parsing fails short of the nesting limit, the error names the token after the longest
prefix of the readable tokens and their end whose kinds begin a sentence followed by the end of
input: the error's line and column are that token's. An error that wanted a kind wanted one
that continues that prefix. -/
theorem parseTokens_error_found [Coord π] (tokens : List (Token π)) (x : ParseError π)
    (h : parseTokens tokens = .error x) (hx : x.kindName ≠ "NESTING_TOO_DEEP") :
    ∃ q, (terminated tokens)[q]? = some x.found ∧
      IsViable π (((terminated tokens).take q).map (·.kind)) ∧
      (∀ j, IsViable π (((terminated tokens).take j).map (·.kind)) → j ≤ q) ∧
      ∀ k t, x = .unexpectedToken k t →
        IsViable π (((terminated tokens).take q).map (·.kind) ++ [k]) := by
  have : Inhabited π := ⟨Coord.ofCount 0⟩
  obtain ⟨r, hrun⟩ : ∃ r, (parseAll (Env.ofTokens (dropComments tokens) (some maxNesting)) 0
      (dropComments tokens)).view = (.error x, r) := ⟨_, Prod.ext h rfl⟩
  have hend : (Env.ofTokens (dropComments tokens) (some maxNesting)).atEnd.kind = .eof :=
    endTokenAfter_kind _
  have hd : (Env.ofTokens (dropComments tokens) (some maxNesting)).Fits 0 0 :=
    (Env.fits_iff_of_limit rfl).2 (Nat.zero_le _)
  obtain ⟨p, hts, hfound, hp, hviable, hexpect⟩ := parseAll_error_begins hend hd hrun hx
  obtain ⟨rest, hterm⟩ := terminated_eq_append hts hp (some maxNesting)
  generalize Env.ofTokens (dropComments tokens) (some maxNesting) = env at hrun hd hend hfound hterm
  rw [hts] at hrun
  have htake : (terminated tokens).take p.length = p := by simp [hterm]
  refine ⟨p.length, by simp [hterm, hfound], by rwa [htake], fun j hj => ?_,
    fun k t hk => by rw [htake]; exact hexpect k t hk⟩
  -- one token past `p` is already too many
  refine Nat.le_of_not_lt fun hlt => ?_
  have hnext : (terminated tokens).take (p.length + 1) = p ++ [env.peek r] := by
    rw [hterm, List.take_length_add_append]
    rfl
  apply not_isViable_of_stop hend hd hrun hx
  have := hj.of_prefix ((List.take_prefix_take_left (by omega : p.length + 1 ≤ j)).map _)
  simpa [hnext] using this

/-- `(1` fails at its end, where the grouping wanted its `)`: the literal, then the binary
levels, the condition and the comma level inside the grouping have all returned when the
error is raised, and it names the end token, two tokens in, at line 1, column 3. -/
theorem parseTokens_unclosed_group_found :
    ∃ x, parseTokens (Scan.scan (Text.ofString "(1")).tokens = .error x ∧
      x = .unexpectedToken .rightParen ⟨.eof, Text.empty, none, 1, 3, 2, 2⟩ ∧
      x.kindName ≠ "NESTING_TOO_DEEP" ∧
      ∃ q, (terminated (Scan.scan (Text.ofString "(1")).tokens)[q]? = some x.found ∧
        IsViable Nat
          (((terminated (Scan.scan (Text.ofString "(1")).tokens).take q).map (·.kind)) ∧
        (∀ j, IsViable Nat
          (((terminated (Scan.scan (Text.ofString "(1")).tokens).take j).map (·.kind)) → j ≤ q) ∧
        ∀ k t, x = .unexpectedToken k t →
          IsViable Nat
            (((terminated (Scan.scan (Text.ofString "(1")).tokens).take q).map (·.kind) ++ [k]) := by
  have h : parseTokens (Scan.scan (Text.ofString "(1")).tokens =
      .error (.unexpectedToken .rightParen ⟨.eof, Text.empty, none, 1, 3, 2, 2⟩) := by
    decide +kernel
  exact ⟨_, h, rfl, by decide, parseTokens_error_found _ _ h (by decide)⟩

end ExprFront.Sentence
