import ExprFront.Proofs.Scan.Pieces
import ExprFront.Proofs.Scan.Restart
import Mathlib.Data.List.TakeWhile
/-!
# What each lexing routine reads

Each routine of the scanner takes the longest lexeme of its class. A number takes every digit,
and a point only when a digit follows it; a name takes every letter, digit and `_`, and is the
keyword whose spelling is the whole name, or an identifier; a string runs to the first quote
after its own, and a line comment up to the next line feed. A string or block comment that is
never closed is an error that takes the rest of the text; a unit that starts nothing is an
error of one code point.

The inversion lemmas `lexAt_token_cases` and `lexAt_error_cases` say which routine a step ran,
given what it found; `lexAt_token_reads` says it by the kind of the token alone, through the way
tokens of each kind are read (`readerOf`).

## Main definitions

* `Scan.LongestPrefix`, `Scan.IsWord`.
* `Scan.Reader`, `Scan.readerOf`, `Scan.ReadsToken`.
-/

namespace ExprFront.Scan

/-! ## Longest prefixes -/

/-- `w` is the longest prefix of `us` of the form `P`. -/
def LongestPrefix (P : List UInt16 → Prop) (us w : List UInt16) : Prop :=
  P w ∧ w <+: us ∧ ∀ v, P v → v <+: us → v.length ≤ w.length

/-- A letter or `_`, then letters, digits and `_`. -/
def IsWord (w : List UInt16) : Prop :=
  ∃ u ws, w = u :: ws ∧ isNameStart u = true ∧ ∀ d ∈ ws, isNamePart d = true

section Runs

variable {p : UInt16 → Bool}

/-- A run of units of a class at the start of a list lies within the longest such run. -/
theorem prefix_takeWhile_of_forall {v us : List UInt16} (hv : ∀ x ∈ v, p x = true)
    (h : v <+: us) : v <+: us.takeWhile p := by
  induction v generalizing us with
  | nil => exact List.nil_prefix
  | cons x v ih =>
    obtain ⟨t, rfl⟩ := h
    rw [List.cons_append, List.takeWhile_cons_of_pos (hv x List.mem_cons_self)]
    exact List.cons_prefix_cons.2
      ⟨rfl, ih (fun y hy => hv y (List.mem_cons_of_mem x hy)) ⟨t, rfl⟩⟩

/-- A run of units of a class followed by a unit outside it is the longest such run. -/
theorem takeWhile_eq_of_append_cons {v w us : List UInt16} {x : UInt16}
    (hv : ∀ y ∈ v, p y = true) (hx : p x = false) (h : v ++ x :: w <+: us) :
    us.takeWhile p = v := by
  obtain ⟨t, rfl⟩ := h
  rw [List.append_assoc, List.cons_append, takeWhile_append_cons_of_not p x hx,
    List.takeWhile_eq_self_iff.2 hv]

theorem take_length_takeWhile (us : List UInt16) :
    us.take (us.takeWhile p).length = us.takeWhile p :=
  (List.prefix_iff_eq_take.1 (List.takeWhile_prefix p)).symm

theorem drop_length_takeWhile (us : List UInt16) :
    us.drop (us.takeWhile p).length = us.dropWhile p := by
  have h : us.takeWhile p ++ us.dropWhile p = us := List.takeWhile_append_dropWhile
  calc us.drop (us.takeWhile p).length
      = (us.takeWhile p ++ us.dropWhile p).drop (us.takeWhile p).length := by rw [h]
    _ = us.dropWhile p := List.drop_left

/-- What follows the longest run of a class: nothing, or a unit outside the class. -/
theorem head?_dropWhile (us : List UInt16) :
    (us.dropWhile p).head? = none ∨ ∃ y, (us.dropWhile p).head? = some y ∧ p y = false := by
  cases hd : us.dropWhile p with
  | nil => exact .inl rfl
  | cons y r =>
    have hy := List.head_dropWhile_not p (l := us) (by rw [hd]; exact List.cons_ne_nil y r)
    simp only [hd, List.head_cons] at hy
    exact .inr ⟨y, rfl, hy⟩

end Runs

/-! ## Numbers -/

/-- After the digits of a number, its fraction: a point and the digits after it when a digit
follows the point, and nothing otherwise. -/
theorem take_fractionLength (R : List UInt16) :
    (R.take (fractionLength R) = [] ∧ ∀ d more, R = 0x2E :: d :: more → isDigit d = false) ∨
      ∃ d more, R = 0x2E :: d :: more ∧ isDigit d = true ∧
        R.take (fractionLength R) = 0x2E :: (d :: more).takeWhile isDigit := by
  unfold fractionLength
  split
  · rename_i d more
    split
    · rename_i hd
      exact .inr ⟨d, more, rfl, hd, by rw [List.take_succ_cons, take_length_takeWhile]⟩
    · rename_i hd
      refine .inl ⟨rfl, fun d' more' h => ?_⟩
      simp only [List.cons.injEq] at h
      rw [← h.2.1]
      simpa using hd
  · rename_i hno
    exact .inl ⟨rfl, fun d more h => absurd h (hno d more)⟩

theorem lexNumber_length (u : UInt16) (rest : List UInt16) :
    (lexNumber u rest).2 = (rest.takeWhile isDigit).length +
      fractionLength (rest.drop (rest.takeWhile isDigit).length) := by
  rw [lexNumber_eq, numberItem_snd]

/-- A number takes the longest numeral the text has where it starts. -/
theorem lexNumber_longest {u : UInt16} (hu : isDigit u = true) (rest : List UInt16) :
    LongestPrefix IsNumeral (u :: rest) (u :: rest.take (lexNumber u rest).2) := by
  -- the digits after `u`, then what follows them
  have hsplit : rest = rest.takeWhile isDigit ++ rest.dropWhile isDigit :=
    List.takeWhile_append_dropWhile.symm
  generalize hds : rest.takeWhile isDigit = ds at hsplit
  generalize hR : rest.dropWhile isDigit = R at hsplit
  subst hsplit
  have hdigits : ∀ d ∈ u :: ds, isDigit d = true := by
    intro d hd
    rcases List.mem_cons.1 hd with rfl | hd
    · exact hu
    · rw [← hds] at hd
      exact List.mem_takeWhile_imp hd
  have hwhole : (u :: (ds ++ R)).takeWhile isDigit = u :: ds := by
    rw [List.takeWhile_cons_of_pos hu, hds]
  have htake : (ds ++ R).take (lexNumber u (ds ++ R)).2 = ds ++ R.take (fractionLength R) := by
    rw [lexNumber_length, hds, List.drop_left, List.take_length_add_append]
  rw [htake]
  refine ⟨?_, List.cons_prefix_cons.2 ⟨rfl, List.prefix_append_right_inj ds |>.2
    (List.take_prefix _ R)⟩, ?_⟩
  · rcases take_fractionLength R with ⟨hnil, -⟩ | ⟨d, more, -, hd, hfrac⟩
    · exact ⟨u :: ds, [], by rw [hnil]; rfl, List.cons_ne_nil _ _, hdigits, .inl rfl⟩
    · refine ⟨u :: ds, R.take (fractionLength R), rfl, List.cons_ne_nil _ _, hdigits,
        .inr ⟨(d :: more).takeWhile isDigit, hfrac, ?_, fun x hx => List.mem_takeWhile_imp hx⟩⟩
      rw [List.takeWhile_cons_of_pos hd]
      exact List.cons_ne_nil _ _
  · rintro v ⟨w, f, rfl, -, hwd, hf⟩ hpre
    have hwlen : w.length ≤ (u :: ds).length := by
      rw [← hwhole]
      exact (prefix_takeWhile_of_forall hwd ((List.prefix_append w f).trans hpre)).length_le
    rcases hf with rfl | ⟨fs, rfl, hfs, hfsd⟩
    · simp only [List.append_nil, List.length_cons, List.length_append] at hwlen ⊢
      omega
    -- a point after the digits: they are all the number's digits, and a digit follows the point
    have hw : w = u :: ds := by
      rw [← hwhole]
      exact (takeWhile_eq_of_append_cons hwd (by decide) hpre).symm
    subst hw
    obtain ⟨t, ht⟩ := (List.prefix_append_right_inj (u :: ds)).1 hpre
    obtain ⟨d, fs', rfl⟩ := List.exists_cons_of_ne_nil hfs
    have hd : isDigit d = true := hfsd d List.mem_cons_self
    rcases take_fractionLength R with ⟨-, hno⟩ | ⟨d', more, hRe, -, hfrac⟩
    · exact absurd (hno d (fs' ++ t) ht.symm) (by rw [hd]; decide)
    · rw [hRe] at ht
      simp only [List.cons_append, List.cons.injEq, true_and] at ht
      obtain ⟨rfl, rfl⟩ := ht
      have hlen := (prefix_takeWhile_of_forall hfsd (List.prefix_append (d :: fs') t)).length_le
      rw [hfrac]
      simp only [List.cons_append, List.length_append, List.length_cons] at hlen ⊢
      omega

theorem numberItem_token {u : UInt16} {rest : List UInt16} {n m : Nat} {k : TokenKind}
    {lit : Option Literal} (h : numberItem u rest n = (.token k lit, m)) :
    m = n ∧ k = .number ∧ (numberValue (u :: rest.take n)).isFinite = true ∧
      lit = some (.number (numberValue (u :: rest.take n))) := by
  unfold numberItem at h
  split at h
  · rename_i hfin
    simp only [Prod.mk.injEq, Item.token.injEq] at h
    exact ⟨h.2.symm, h.1.1.symm, hfin, h.1.2.symm⟩
  · cases h

theorem numberItem_error {u : UInt16} {rest : List UInt16} {n m : Nat} {kind : ScanErrorKind}
    {text : Text} (h : numberItem u rest n = (.error kind text, m)) :
    m = n ∧ kind = .invalidNumber ∧ (numberValue (u :: rest.take n)).isFinite = false ∧
      text = ⟨u :: rest.take n⟩ := by
  unfold numberItem at h
  split at h
  · cases h
  · rename_i hfin
    simp only [Prod.mk.injEq, Item.error.injEq] at h
    exact ⟨h.2.symm, h.1.1.symm, by simpa using hfin, h.1.2.symm⟩

/-! ## Names -/

theorem lexName_length (u : UInt16) (rest : List UInt16) :
    (lexName u rest).2 = (rest.takeWhile isNamePart).length := by
  unfold lexName
  dsimp only
  split <;> rfl

/-- A name takes the longest word the text has where it starts. -/
theorem lexName_longest {u : UInt16} (hu : isNameStart u = true) (rest : List UInt16) :
    LongestPrefix IsWord (u :: rest) (u :: rest.take (lexName u rest).2) := by
  rw [lexName_length, take_length_takeWhile]
  refine ⟨⟨u, _, rfl, hu, fun d hd => List.mem_takeWhile_imp hd⟩,
    List.cons_prefix_cons.2 ⟨rfl, List.takeWhile_prefix _⟩, ?_⟩
  rintro v ⟨u', ws, rfl, -, hws⟩ hpre
  obtain ⟨-, hpre⟩ := List.cons_prefix_cons.1 hpre
  simpa using (prefix_takeWhile_of_forall hws hpre).length_le

/-- A name is the keyword its whole lexeme spells, carrying that keyword's literal, or an
identifier, carrying none. -/
theorem lexName_token {u : UInt16} {rest : List UInt16} {k : TokenKind} {lit : Option Literal}
    {n : Nat} (h : lexName u rest = (.token k lit, n)) :
    ((∃ w ∈ TokenKind.keywords, Text.ofString w.1 = ⟨u :: rest.take n⟩ ∧ k = w.2) ∨
      ((∀ w ∈ TokenKind.keywords, Text.ofString w.1 ≠ ⟨u :: rest.take n⟩) ∧
        k = .identifier)) ∧
      lit = k.keywordLiteral := by
  have hn : (rest.takeWhile isNamePart).length = n := by rw [← lexName_length u rest, h]
  subst hn
  unfold lexName at h
  dsimp only at h
  rw [TokenKind.keywordFromText_eq_keyword?] at h
  split at h
  · rename_i k' hk
    simp only [Prod.mk.injEq, Item.token.injEq] at h
    obtain ⟨⟨rfl, rfl⟩, -⟩ := h
    obtain ⟨w, hw, hspell, rfl⟩ := TokenKind.keyword?_spelled hk
    exact ⟨.inl ⟨w, hw, hspell, rfl⟩, rfl⟩
  · rename_i hk
    simp only [Prod.mk.injEq, Item.token.injEq] at h
    obtain ⟨⟨rfl, rfl⟩, -⟩ := h
    exact ⟨.inr ⟨TokenKind.keyword?_eq_none_iff.1 hk, rfl⟩, rfl⟩

theorem lexName_kind {u : UInt16} {rest : List UInt16} {k : TokenKind} {lit : Option Literal}
    {n : Nat} (h : lexName u rest = (.token k lit, n)) :
    k = .identifier ∨ k ∈ TokenKind.keywords.map Prod.snd := by
  rcases (lexName_token h).1 with ⟨w, hw, -, rfl⟩ | ⟨-, rfl⟩
  · exact .inr (List.mem_map_of_mem hw)
  · exact .inl rfl

/-! ## Strings and comments -/

/-- A string runs to the first quote after its own, which it takes, and carries what lies
between. -/
theorem lexString_token {rest : List UInt16} {k : TokenKind} {lit : Option Literal} {n : Nat}
    (h : lexString rest = (.token k lit, n)) :
    k = .string ∧ ∃ x, rest.take n = x ++ [0x22] ∧ 0x22 ∉ x ∧ lit = some (.string ⟨x⟩) := by
  unfold lexString at h
  dsimp only at h
  split at h
  · rename_i hlt
    simp only [Prod.mk.injEq, Item.token.injEq] at h
    obtain ⟨⟨rfl, rfl⟩, rfl⟩ := h
    -- the units up to the first quote, then the quote
    have hsplit : rest.takeWhile (· != 0x22) ++ rest.dropWhile (· != 0x22) = rest :=
      List.takeWhile_append_dropWhile
    rcases head?_dropWhile (p := (· != 0x22)) rest with hnone | ⟨y, hy, hq⟩
    · rw [List.head?_eq_none_iff] at hnone
      rw [hnone, List.append_nil] at hsplit
      rw [hsplit] at hlt
      exact absurd hlt (Nat.lt_irrefl _)
    obtain ⟨r, hr⟩ : ∃ r, rest.dropWhile (· != 0x22) = y :: r := by
      cases hd : rest.dropWhile (· != 0x22) with
      | nil => rw [hd] at hy; cases hy
      | cons y' r => rw [hd] at hy; cases hy; exact ⟨r, rfl⟩
    have hy' : y = 0x22 := by simpa using hq
    subst hy'
    refine ⟨rfl, rest.takeWhile (· != 0x22), ?_, fun hmem => ?_, by rw [take_length_takeWhile]⟩
    · have hrest : rest = rest.takeWhile (· != 0x22) ++ 0x22 :: r := by rw [← hr, hsplit]
      calc rest.take ((rest.takeWhile (· != 0x22)).length + 1)
          = (rest.takeWhile (· != 0x22) ++ 0x22 :: r).take
              ((rest.takeWhile (· != 0x22)).length + 1) := by rw [← hrest]
        _ = rest.takeWhile (· != 0x22) ++ [0x22] := by
          rw [List.take_length_add_append, List.take_succ_cons, List.take_zero]
    · simpa using List.mem_takeWhile_imp hmem
  · cases h

/-- A slash by itself stands before a unit that is neither `/` nor `*`, or at the end. -/
theorem lexSlash_slash {rest : List UInt16} {lit : Option Literal} {n : Nat}
    (h : lexSlash rest = (.token .slash lit, n)) :
    lit = none ∧ n = 0 ∧ rest.head? ≠ some 0x2F ∧ rest.head? ≠ some 0x2A := by
  rcases rest with _ | ⟨v, body⟩
  · cases h
    exact ⟨rfl, rfl, by simp, by simp⟩
  by_cases h2F : v = 0x2F
  · subst h2F
    cases h
  by_cases h2A : v = 0x2A
  · subst h2A
    -- after `/*` comes a comment or an error, never the slash alone
    cases hc : closeBlock 1 0 body with
    | some k =>
      have hstep : lexSlash (0x2A :: body) = (comment (Text.trim ⟨body.take (k - 2)⟩), k + 1) := by
        simp [lexSlash, hc]
      rw [hstep] at h
      simp [comment] at h
    | none =>
      have hstep : lexSlash (0x2A :: body) =
          (.error .unterminatedBlockComment (Text.ofString "/*"), (0x2A :: body).length) := by
        simp [lexSlash, hc]
      rw [hstep] at h
      cases h
  have hstep : lexSlash (v :: body) = (.token .slash none, 0) := by
    simp [lexSlash, h2F, h2A]
  rw [hstep] at h
  cases h
  exact ⟨rfl, rfl, by simpa using h2F, by simpa using h2A⟩

/-- A line comment runs up to the next line feed, which it leaves, or to the end; its literal is
what follows `//`, without leading blanks. -/
theorem lexSlash_lineComment {body : List UInt16} {k : TokenKind} {lit : Option Literal} {n : Nat}
    (h : lexSlash (0x2F :: body) = (.token k lit, n)) :
    ∃ m, n = m + 1 ∧ 0x0A ∉ body.take m ∧
      ((body.drop m).head? = none ∨ (body.drop m).head? = some 0x0A) ∧
      lit = some (.string (Text.trimStart ⟨body.take m⟩)) := by
  have hstep : lexSlash (0x2F :: body) =
      (comment (Text.trimStart ⟨body.take (body.takeWhile (· != 0x0A)).length⟩),
        (body.takeWhile (· != 0x0A)).length + 1) := rfl
  rw [hstep] at h
  simp only [comment, Prod.mk.injEq, Item.token.injEq] at h
  obtain ⟨⟨-, rfl⟩, rfl⟩ := h
  refine ⟨_, rfl, fun hmem => ?_, ?_, rfl⟩
  · rw [take_length_takeWhile] at hmem
    simpa using List.mem_takeWhile_imp hmem
  · rw [drop_length_takeWhile]
    rcases head?_dropWhile (p := (· != 0x0A)) body with hnone | ⟨y, hy, hnl⟩
    · exact .inl hnone
    · exact .inr (by rw [hy]; simpa using hnl)

/-- An unclosed block comment: the text after `/*` closes no comment, and the error, with lexeme
`/*`, takes all of it. -/
theorem lexSlash_error {rest : List UInt16} {kind : ScanErrorKind} {text : Text} {n : Nat}
    (h : lexSlash rest = (.error kind text, n)) :
    ∃ body, rest = 0x2A :: body ∧ closeBlock 1 0 body = none ∧
      kind = .unterminatedBlockComment ∧ text = Text.ofString "/*" ∧ n = rest.length := by
  unfold lexSlash at h
  split at h
  · simp [comment] at h
  · rename_i body
    split at h
    · simp [comment] at h
    · rename_i hnone
      simp only [Prod.mk.injEq, Item.error.injEq] at h
      exact ⟨body, rfl, hnone, h.1.1.symm, h.1.2.symm, h.2.symm⟩
  · cases h

/-- An unclosed string: no quote follows its own, and the error's lexeme is all the rest of the
text from that quote. -/
theorem lexString_error {rest : List UInt16} {kind : ScanErrorKind} {text : Text} {n : Nat}
    (h : lexString rest = (.error kind text, n)) :
    kind = .unterminatedString ∧ text = ⟨0x22 :: rest⟩ ∧ n = rest.length ∧ 0x22 ∉ rest := by
  unfold lexString at h
  dsimp only at h
  split at h
  · cases h
  · rename_i hge
    simp only [Prod.mk.injEq, Item.error.injEq] at h
    refine ⟨h.1.1.symm, h.1.2.symm, h.2.symm, fun hmem => hge ?_⟩
    -- a quote in the text stops the run before the end
    have hall : rest.takeWhile (· != 0x22) = rest :=
      List.IsPrefix.eq_of_length (List.takeWhile_prefix _)
        (Nat.le_antisymm (List.takeWhile_prefix _).length_le (Nat.le_of_not_lt hge))
    rw [← hall] at hmem
    simpa using List.mem_takeWhile_imp hmem

/-- A unit that starts nothing is an error by itself, or with the low surrogate after it when it
is a high surrogate. -/
theorem lexUnexpected_error {u : UInt16} {rest : List UInt16} {kind : ScanErrorKind} {text : Text}
    {n : Nat} (h : lexUnexpected u rest = (.error kind text, n)) :
    kind = .unexpectedCharacter ∧
      ((∃ v more, rest = v :: more ∧ Text.isHighSurrogate u = true ∧
          Text.isLowSurrogate v = true ∧ text = ⟨[u, v]⟩ ∧ n = 1) ∨
        (text = ⟨[u]⟩ ∧ n = 0 ∧
          ∀ v more, rest = v :: more → Text.isHighSurrogate u = true →
            Text.isLowSurrogate v = false)) := by
  unfold lexUnexpected at h
  split at h
  · rename_i v more
    split at h
    · rename_i hpair
      simp only [Prod.mk.injEq, Item.error.injEq] at h
      simp only [Bool.and_eq_true] at hpair
      exact ⟨h.1.1.symm, .inl ⟨v, more, rfl, hpair.1, hpair.2, h.1.2.symm, h.2.symm⟩⟩
    · rename_i hpair
      simp only [Prod.mk.injEq, Item.error.injEq] at h
      refine ⟨h.1.1.symm, .inr ⟨h.1.2.symm, h.2.symm, fun v' more' hrest hhigh => ?_⟩⟩
      cases hrest
      simpa [hhigh] using hpair
  · simp only [Prod.mk.injEq, Item.error.injEq] at h
    exact ⟨h.1.1.symm, .inr ⟨h.1.2.symm, h.2.symm, fun v more hrest => by cases hrest⟩⟩

/-! ## Which routine read a token -/

/-- What a step that reads a token has done: read a mark by itself; read `!`, `=`, `<` or `>`
with the following `=` when there is one; or run the routine for `/`, `"`, a digit or a
letter. -/
theorem lexAt_token_cases {u : UInt16} {rest : List UInt16} {k : TokenKind}
    {lit : Option Literal} {n : Nat} (h : lexAt u rest = (.token k lit, n)) :
    (singleKind? u = some k ∧ lit = none ∧ n = 0) ∨
      (∃ alone withEqual, pairKinds? u = some (alone, withEqual) ∧ lit = none ∧
        ((rest.head? = some 0x3D ∧ k = withEqual ∧ n = 1) ∨
          (rest.head? ≠ some 0x3D ∧ k = alone ∧ n = 0))) ∨
      (u = 0x2F ∧ lexSlash rest = (.token k lit, n)) ∨
      (u = 0x22 ∧ lexString rest = (.token k lit, n)) ∨
      (isDigit u = true ∧ lexNumber u rest = (.token k lit, n)) ∨
      (isNameStart u = true ∧ lexName u rest = (.token k lit, n)) := by
  unfold lexAt at h
  split at h
  · cases h
  split at h
  · rename_i k' hk
    simp only [Prod.mk.injEq, Item.token.injEq] at h
    obtain ⟨⟨rfl, rfl⟩, rfl⟩ := h
    exact .inl ⟨hk, rfl, rfl⟩
  split at h
  · rename_i alone withEqual hpair
    refine .inr (.inl ⟨alone, withEqual, hpair, ?_⟩)
    split at h
    · simp only [Prod.mk.injEq, Item.token.injEq] at h
      obtain ⟨⟨rfl, rfl⟩, rfl⟩ := h
      exact ⟨rfl, .inl ⟨by simp, rfl, rfl⟩⟩
    · rename_i hno
      simp only [Prod.mk.injEq, Item.token.injEq] at h
      obtain ⟨⟨rfl, rfl⟩, rfl⟩ := h
      refine ⟨rfl, .inr ⟨fun hhead => ?_, rfl, rfl⟩⟩
      obtain ⟨tail, rfl⟩ : ∃ tail, rest = 0x3D :: tail := by
        cases rest with
        | nil => cases hhead
        | cons v tail => simp only [List.head?_cons, Option.some.injEq] at hhead; exact ⟨tail, by rw [hhead]⟩
      exact hno tail rfl
  split at h
  · rename_i hslash
    exact .inr (.inr (.inl ⟨by simpa using hslash, h⟩))
  split at h
  · rename_i hquote
    exact .inr (.inr (.inr (.inl ⟨by simpa using hquote, h⟩)))
  split at h
  · rename_i hdigit
    exact .inr (.inr (.inr (.inr (.inl ⟨hdigit, h⟩))))
  split at h
  · rename_i hname
    exact .inr (.inr (.inr (.inr (.inr ⟨hname, h⟩))))
  · -- an unexpected character is an error
    unfold lexUnexpected at h
    split at h
    · split at h <;> cases h
    · cases h

/-- What a step that finds an error has done: run the routine for `/`, `"` or a digit, or read
a unit that starts nothing. -/
theorem lexAt_error_cases {u : UInt16} {rest : List UInt16} {kind : ScanErrorKind} {text : Text}
    {n : Nat} (h : lexAt u rest = (.error kind text, n)) :
    (u = 0x2F ∧ lexSlash rest = (.error kind text, n)) ∨
      (u = 0x22 ∧ lexString rest = (.error kind text, n)) ∨
      (isDigit u = true ∧ lexNumber u rest = (.error kind text, n)) ∨
      (isDigit u = false ∧ isNameStart u = false ∧ lexUnexpected u rest = (.error kind text, n)) := by
  unfold lexAt at h
  split at h
  · cases h
  split at h
  · cases h
  split at h
  · split at h <;> cases h
  split at h
  · rename_i hslash
    exact .inl ⟨by simpa using hslash, h⟩
  split at h
  · rename_i hquote
    exact .inr (.inl ⟨by simpa using hquote, h⟩)
  split at h
  · rename_i hdigit
    exact .inr (.inr (.inl ⟨hdigit, h⟩))
  split at h
  · unfold lexName at h
    dsimp only at h
    split at h <;> cases h
  · rename_i hdigit hname
    exact .inr (.inr (.inr ⟨by simpa using hdigit, by simpa using hname, h⟩))

/-- The ways the scanner reads a token, each chosen by the token's first unit: a mark by
itself, `!`, `=`, `<` or `>` with or without `=`, and the routines after `/`, `"`, a digit and a
letter or `_`. -/
inductive Reader where
  | mark
  | pair
  | slash
  | quote
  | digit
  | letter
  deriving DecidableEq

/-- How tokens of each kind are read; the end token is not read at all. -/
def readerOf : TokenKind → Option Reader
  | .leftParen | .rightParen | .leftBrace | .rightBrace | .comma | .dot | .minus | .plus
  | .semicolon | .star | .question | .colon => some .mark
  | .bang | .bangEqual | .equal | .equalEqual | .less | .lessEqual | .greater
  | .greaterEqual => some .pair
  | .slash | .comment => some .slash
  | .string => some .quote
  | .number => some .digit
  | .identifier | .andKw | .classKw | .elseKw | .falseKw | .forKw | .fnKw | .ifKw | .nilKw
  | .orKw | .printKw | .returnKw | .superKw | .thisKw | .trueKw | .varKw | .whileKw => some .letter
  | .eof => none

/-- What it means that a token of kind `k` carrying `lit` was read from the unit `u` and `n` of
the units `rest` after it, in the way tokens of that kind are read. -/
def ReadsToken (k : TokenKind) (u : UInt16) (rest : List UInt16) (lit : Option Literal)
    (n : Nat) : Prop :=
  match readerOf k with
  | some .mark => singleKind? u = some k ∧ lit = none ∧ n = 0
  | some .pair => ∃ alone withEqual, pairKinds? u = some (alone, withEqual) ∧ lit = none ∧
      ((rest.head? = some 0x3D ∧ k = withEqual ∧ n = 1) ∨
        (rest.head? ≠ some 0x3D ∧ k = alone ∧ n = 0))
  | some .slash => u = 0x2F ∧ lexSlash rest = (.token k lit, n)
  | some .quote => u = 0x22 ∧ lexString rest = (.token k lit, n)
  | some .digit => isDigit u = true ∧ lexNumber u rest = (.token k lit, n)
  | some .letter => isNameStart u = true ∧ lexName u rest = (.token k lit, n)
  | none => False

theorem singleKind?_reader {u : UInt16} {k : TokenKind} (h : singleKind? u = some k) :
    readerOf k = some .mark := by
  unfold singleKind? at h
  split at h <;> cases h <;> rfl

theorem pairKinds?_mem {u : UInt16} {a b : TokenKind} (h : pairKinds? u = some (a, b)) :
    a ∈ [TokenKind.bang, .equal, .less, .greater] ∧
      b ∈ [TokenKind.bangEqual, .equalEqual, .lessEqual, .greaterEqual] := by
  unfold pairKinds? at h
  split at h <;> cases h <;> decide

theorem readerOf_word {k : TokenKind} (hk : k = .identifier ∨ k ∈ TokenKind.keywords.map Prod.snd) :
    readerOf k = some .letter := by
  rcases hk with rfl | hk
  · rfl
  · exact (by decide : ∀ k ∈ TokenKind.keywords.map Prod.snd, readerOf k = some .letter) k hk

/-- Every token a step reads, it reads in the way tokens of its kind are read. -/
theorem lexAt_token_reads {u : UInt16} {rest : List UInt16} {k : TokenKind}
    {lit : Option Literal} {n : Nat} (h : lexAt u rest = (.token k lit, n)) :
    ReadsToken k u rest lit n := by
  unfold ReadsToken
  rcases lexAt_token_cases h with ⟨hs, hlit, hn⟩ | ⟨a, b, hs, hlit, hab⟩ | ⟨hu, hs⟩ | ⟨hu, hs⟩ |
    ⟨hu, hs⟩ | ⟨hu, hs⟩
  · rw [singleKind?_reader hs]
    exact ⟨hs, hlit, hn⟩
  · have hpair : ∀ k' ∈ [TokenKind.bang, .equal, .less, .greater, .bangEqual, .equalEqual,
        .lessEqual, .greaterEqual], readerOf k' = some .pair := by
      decide
    have hmem := pairKinds?_mem hs
    rcases hab with ⟨hhead, rfl, hn⟩ | ⟨hhead, rfl, hn⟩
    · rw [hpair _ (List.mem_append_right [_, _, _, _] hmem.2)]
      exact ⟨a, _, hs, hlit, .inl ⟨hhead, rfl, hn⟩⟩
    · rw [hpair _ (List.mem_append_left [_, _, _, _] hmem.1)]
      exact ⟨_, b, hs, hlit, .inr ⟨hhead, rfl, hn⟩⟩
  · rcases lexSlash_token hs with rfl | ⟨rfl, -⟩ <;> exact ⟨hu, hs⟩
  · have hk := (lexString_token hs).1
    subst hk
    exact ⟨hu, hs⟩
  · rw [lexNumber_eq] at hs
    have hk := (numberItem_token hs).2.1
    rw [← lexNumber_eq] at hs
    subst hk
    exact ⟨hu, hs⟩
  · rw [readerOf_word (lexName_kind hs)]
    exact ⟨hu, hs⟩

end ExprFront.Scan
