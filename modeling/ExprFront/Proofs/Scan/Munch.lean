import ExprFront.Proofs.Scan.Walk
import ExprFront.Proofs.Scan.Routines
/-!
# Every token is the longest the text allows

The scanner reads the longest lexeme of each class from where it stands. A number takes every
digit, and a point only when a digit follows it, so `1.5.3` gives `1.5` and `1.` gives `1`. A
name takes every letter, digit and `_`, and is the keyword whose spelling is the whole name, or
an identifier. `!`, `=`, `<` and `>` stand alone only before a unit that is not `=`, and `/`
only before one that is neither `/` nor `*`. A string runs to the first quote after its own, and
a line comment up to the line feed, which it leaves. A number token carries a finite value: a
numeral too large for one is an error, and no token starts where it does.

Each class of token is read by one routine (`lexAt_token_reads`), whose lemmas in
`Proofs/Scan/Routines` give the class's law; every token of a scan was read by `lexAt` where the
text has it (`lexAt_of_mem_tokens`).

Main statement (`scan_tokens_longest`).
-/

namespace ExprFront.Scan

/-! ## Tokens of each class -/

section Classes

variable {u : UInt16} {rest : List UInt16} {k : TokenKind} {lit : Option Literal} {n : Nat}

/-- A number token's lexeme is the longest numeral the text has where it starts; its value is
finite, and the token carries it. -/
theorem lexAt_number (h : lexAt u rest = (.token .number lit, n)) :
    LongestPrefix IsNumeral (u :: rest) (u :: rest.take n) ∧
      (numberValue (u :: rest.take n)).isFinite = true ∧
      lit = some (.number (numberValue (u :: rest.take n))) := by
  obtain ⟨hu, hs⟩ : isDigit u = true ∧ lexNumber u rest = (.token .number lit, n) :=
    lexAt_token_reads h
  have hn : (lexNumber u rest).2 = n := by rw [hs]
  rw [lexNumber_eq] at hs
  obtain ⟨hm, -, hfin, hlit⟩ := numberItem_token hs
  rw [← hm] at hfin hlit
  exact ⟨hn ▸ lexNumber_longest hu rest, hfin, hlit⟩

/-- A token that is an identifier or a keyword has as lexeme the longest word the text has where
it starts; it is the keyword whose spelling is that whole word, or an identifier when there is
none, and it carries the literal of its kind. -/
theorem lexAt_word (h : lexAt u rest = (.token k lit, n))
    (hk : k = .identifier ∨ k ∈ TokenKind.keywords.map Prod.snd) :
    LongestPrefix IsWord (u :: rest) (u :: rest.take n) ∧
      ((∃ w ∈ TokenKind.keywords, Text.ofString w.1 = ⟨u :: rest.take n⟩ ∧ k = w.2) ∨
        ((∀ w ∈ TokenKind.keywords, Text.ofString w.1 ≠ ⟨u :: rest.take n⟩) ∧
          k = .identifier)) ∧
      lit = k.keywordLiteral := by
  have hread := lexAt_token_reads h
  rw [ReadsToken, readerOf_word hk] at hread
  obtain ⟨hu, hs⟩ := hread
  have hn : (lexName u rest).2 = n := by rw [hs]
  exact ⟨hn ▸ lexName_longest hu rest, lexName_token hs⟩

/-- `!`, `=`, `<` or `>` by itself takes nothing after it and stands before a unit that is not
`=`, or at the end. -/
theorem lexAt_alone (h : lexAt u rest = (.token k lit, n))
    (hk : k ∈ [TokenKind.bang, .equal, .less, .greater]) : n = 0 ∧ rest.head? ≠ some 0x3D := by
  have hread := lexAt_token_reads h
  have hpair : readerOf k = some .pair := by
    simp only [List.mem_cons, List.not_mem_nil, or_false] at hk
    rcases hk with rfl | rfl | rfl | rfl <;> rfl
  rw [ReadsToken, hpair] at hread
  obtain ⟨a, b, hs, -, ⟨-, rfl, -⟩ | ⟨hhead, -, hn⟩⟩ := hread
  · -- with its `=` it would be of another kind
    have hdisjoint : ∀ k' ∈ [TokenKind.bangEqual, .equalEqual, .lessEqual, .greaterEqual],
        k' ∉ [TokenKind.bang, .equal, .less, .greater] := by
      decide
    exact absurd hk (hdisjoint _ (pairKinds?_mem hs).2)
  · exact ⟨hn, hhead⟩

/-- A slash token takes nothing after it and stands before a unit that is neither `/` nor `*`,
or at the end. -/
theorem lexAt_slash (h : lexAt u rest = (.token .slash lit, n)) :
    n = 0 ∧ rest.head? ≠ some 0x2F ∧ rest.head? ≠ some 0x2A := by
  obtain ⟨-, hs⟩ : u = 0x2F ∧ lexSlash rest = (.token .slash lit, n) := lexAt_token_reads h
  exact (lexSlash_slash hs).2

/-- A string token starts with a quote, runs to the next quote and carries what lies
between. -/
theorem lexAt_string (h : lexAt u rest = (.token .string lit, n)) :
    u = 0x22 ∧ ∃ x, rest.take n = x ++ [0x22] ∧ 0x22 ∉ x ∧ lit = some (.string ⟨x⟩) := by
  obtain ⟨hu, hs⟩ : u = 0x22 ∧ lexString rest = (.token .string lit, n) := lexAt_token_reads h
  exact ⟨hu, (lexString_token hs).2⟩

/-- A comment token whose lexeme starts with `//` runs up to the next line feed, which it
leaves, or to the end; its literal is what follows `//`, without leading blanks. -/
theorem lexAt_lineComment (h : lexAt u rest = (.token .comment lit, n))
    (hpre : [0x2F, 0x2F] <+: u :: rest.take n) :
    ∃ body m, u = 0x2F ∧ rest = 0x2F :: body ∧ n = m + 1 ∧ 0x0A ∉ body.take m ∧
      ((body.drop m).head? = none ∨ (body.drop m).head? = some 0x0A) ∧
      lit = some (.string (Text.trimStart ⟨body.take m⟩)) := by
  obtain ⟨hu, hs⟩ : u = 0x2F ∧ lexSlash rest = (.token .comment lit, n) := lexAt_token_reads h
  -- the second `/` is the first unit after `u`
  obtain ⟨body, rfl⟩ : ∃ body, rest = 0x2F :: body := by
    obtain ⟨tl, htl⟩ := hpre
    cases rest with
    | nil => simp at htl
    | cons v body =>
      cases n with
      | zero => simp at htl
      | succ m =>
        simp only [List.take_succ_cons, List.cons_append, List.nil_append, List.cons.injEq] at htl
        exact ⟨body, by rw [← htl.2.1]⟩
  obtain ⟨m, rfl, hnl, hnext, hlit⟩ := lexSlash_lineComment hs
  exact ⟨body, m, hu, rfl, rfl, hnl, hnext, hlit⟩

/-- An invalid number is the longest numeral the text has where it starts, and its value is not
finite. -/
theorem lexAt_invalidNumber {text : Text} (h : lexAt u rest = (.error .invalidNumber text, n)) :
    text = ⟨u :: rest.take n⟩ ∧ LongestPrefix IsNumeral (u :: rest) (u :: rest.take n) ∧
      (numberValue (u :: rest.take n)).isFinite = false := by
  rcases lexAt_error_cases h with ⟨-, hs⟩ | ⟨-, hs⟩ | ⟨hu, hs⟩ | ⟨-, -, hs⟩
  · obtain ⟨_, -, -, hkind, -⟩ := lexSlash_error hs
    cases hkind
  · cases (lexString_error hs).1
  · have hn : (lexNumber u rest).2 = n := by rw [hs]
    rw [lexNumber_eq] at hs
    obtain ⟨hm, -, hinf, htext⟩ := numberItem_error hs
    rw [← hm] at hinf htext
    exact ⟨htext, hn ▸ lexNumber_longest hu rest, hinf⟩
  · cases (lexUnexpected_error hs).1

end Classes

/-! ## The tokens of a scan -/

section Scan

variable {s : Text}

/-- Every token of a scan but the end token is the longest of its class that the text has where
it starts. -/
theorem mem_tokens_longest {t : Token Nat} (ht : t ∈ (scan s).tokens) (hne : t.kind ≠ .eof) :
    (t.kind = .number →
      LongestPrefix IsNumeral (s.units.drop t.start) t.lexeme.units ∧
        (numberValue t.lexeme.units).isFinite = true ∧
        t.literal = some (.number (numberValue t.lexeme.units))) ∧
    (t.kind = .identifier ∨ t.kind ∈ TokenKind.keywords.map Prod.snd →
      LongestPrefix IsWord (s.units.drop t.start) t.lexeme.units ∧
        ((∃ w ∈ TokenKind.keywords, Text.ofString w.1 = t.lexeme ∧ t.kind = w.2) ∨
          ((∀ w ∈ TokenKind.keywords, Text.ofString w.1 ≠ t.lexeme) ∧ t.kind = .identifier)) ∧
        t.literal = t.kind.keywordLiteral) ∧
    (t.kind ∈ [.bang, .equal, .less, .greater] → s.units[t.stop]? ≠ some 0x3D) ∧
    (t.kind = .slash → s.units[t.stop]? ≠ some 0x2F ∧ s.units[t.stop]? ≠ some 0x2A) ∧
    (t.kind = .string → ∃ x, t.lexeme.units = 0x22 :: x ++ [0x22] ∧ 0x22 ∉ x ∧
      t.literal = some (.string ⟨x⟩)) ∧
    (t.kind = .comment → [0x2F, 0x2F] <+: t.lexeme.units →
      0x0A ∉ t.lexeme.units ∧ (s.units[t.stop]? = none ∨ s.units[t.stop]? = some 0x0A) ∧
        t.literal = some (.string (Text.trimStart ⟨t.lexeme.units.drop 2⟩))) := by
  obtain ⟨u, rest, n, hdrop, hlex, hlexeme, hstop⟩ := lexAt_of_mem_tokens ht hne
  -- the unit after the token is the one after the `n` units of `rest` it took
  have hnext : s.units[t.stop]? = (rest.drop n).head? := by
    rw [← List.head?_drop, hstop, ← List.drop_drop, hdrop, List.drop_succ_cons]
  have htext : t.lexeme = ⟨u :: rest.take n⟩ := by rw [← hlexeme]
  rw [hdrop, hlexeme, hnext, htext]
  refine ⟨fun hk => ?_, fun hk => ?_, fun hk => ?_, fun hk => ?_, fun hk => ?_, fun hk hpre => ?_⟩
  · rw [hk] at hlex
    exact lexAt_number hlex
  · exact lexAt_word hlex hk
  · obtain ⟨rfl, hhead⟩ := lexAt_alone hlex hk
    rwa [List.drop_zero]
  · rw [hk] at hlex
    obtain ⟨rfl, h2F, h2A⟩ := lexAt_slash hlex
    rw [List.drop_zero]
    exact ⟨h2F, h2A⟩
  · rw [hk] at hlex
    obtain ⟨rfl, x, hx, hq, hlit⟩ := lexAt_string hlex
    exact ⟨x, by rw [hx]; rfl, hq, hlit⟩
  · rw [hk] at hlex
    obtain ⟨body, m, rfl, rfl, rfl, hnl, hhead, hlit⟩ := lexAt_lineComment hlex hpre
    refine ⟨?_, by simpa using hhead, by simpa using hlit⟩
    simp only [List.take_succ_cons, List.mem_cons]
    rintro (h | h | h)
    · cases h
    · cases h
    · exact hnl h

/-- Every invalid number of a scan is the longest numeral the text has where its step began,
at the line and column of that offset; its value is not finite, and no token starts there. -/
theorem mem_errors_invalidNumber {e : ScanError} (he : e ∈ (scan s).errors)
    (hk : e.kind = .invalidNumber) :
    ∃ o, LongestPrefix IsNumeral (s.units.drop o) e.lexeme.units ∧
      (numberValue e.lexeme.units).isFinite = false ∧
      e.line = s.lineAt o ∧ e.column = s.columnAt o ∧ ∀ t ∈ (scan s).tokens, t.start ≠ o := by
  obtain ⟨r, hr, hre⟩ := exists_reading_of_mem_errors he
  obtain ⟨hitem, hline, hcolumn⟩ := Reading.error?_eq_some hre
  have hread := readsIn_of_mem_readings hr
  have hat := hread.line_column
  obtain ⟨-, u, rest, n, hdrop, hlex, -⟩ := hread
  rw [hitem, hk] at hlex
  obtain ⟨htext, hlong, hinf⟩ := lexAt_invalidNumber hlex
  refine ⟨r.start.offset, by rw [hdrop, htext]; exact hlong, by rw [htext]; exact hinf,
    by rw [hline]; exact hat.1, by rw [hcolumn]; exact hat.2, fun t ht heq => ?_⟩
  rw [scan_eq_readings] at ht
  rcases List.mem_append.1 ht with ht | ht
  · -- the only reading that starts there found the error
    obtain ⟨r', hr', ht'⟩ := List.mem_filterMap.1 ht
    have hstart := (Reading.token?_eq_some ht').2.2.1
    obtain rfl := eq_of_mem_walk_of_start hr' hr (by rw [← hstart, heq])
    rw [Reading.token?, hitem] at ht'
    cases ht'
  · -- the end token is at the end of the text, after the numeral
    rw [List.mem_singleton.1 ht] at heq
    have hlen := congrArg List.length hdrop
    simp only [List.length_drop, List.length_cons] at hlen
    simp only [endToken, Position.offset_after, Position.initial] at heq
    omega

end Scan

/-- Every token of a scan is the longest lexeme of its class that the text has where the token
starts. A number is the longest `[0-9]+(.[0-9]+)?` there and carries its finite value; a name is
the longest `[A-Za-z_][A-Za-z0-9_]*` there, the keyword spelled by the whole name or else an
identifier, and carries a literal exactly when it is `true`, `false` or `nil` (the scanner's
keyword lookup agreeing with the table of keywords on every text); `!`, `=`, `<`, `>` alone stand
before no `=`, and `/` alone before no `/` or `*`; a string is a quote, units other than a
quote, and a quote, and carries what lies between; a line comment stops at the next line feed
or the end of the text and carries its text after `//`, less leading blanks. A numeral whose
value is infinite is an error in place of a token. -/
theorem scan_tokens_longest (s : Text) :
    (∀ x : Text, TokenKind.keywordFromText x = TokenKind.keyword? x) ∧
    (∀ t ∈ (scan s).tokens, t.kind ≠ .eof →
      (t.kind = .number →
        LongestPrefix IsNumeral (s.units.drop t.start) t.lexeme.units ∧
          (numberValue t.lexeme.units).isFinite = true ∧
          t.literal = some (.number (numberValue t.lexeme.units))) ∧
      (t.kind = .identifier ∨ t.kind ∈ TokenKind.keywords.map Prod.snd →
        LongestPrefix IsWord (s.units.drop t.start) t.lexeme.units ∧
          ((∃ w ∈ TokenKind.keywords, Text.ofString w.1 = t.lexeme ∧ t.kind = w.2) ∨
            ((∀ w ∈ TokenKind.keywords, Text.ofString w.1 ≠ t.lexeme) ∧
              t.kind = .identifier)) ∧
          t.literal = t.kind.keywordLiteral) ∧
      (t.kind ∈ [.bang, .equal, .less, .greater] → s.units[t.stop]? ≠ some 0x3D) ∧
      (t.kind = .slash → s.units[t.stop]? ≠ some 0x2F ∧ s.units[t.stop]? ≠ some 0x2A) ∧
      (t.kind = .string → ∃ x, t.lexeme.units = 0x22 :: x ++ [0x22] ∧ 0x22 ∉ x ∧
        t.literal = some (.string ⟨x⟩)) ∧
      (t.kind = .comment → [0x2F, 0x2F] <+: t.lexeme.units →
        0x0A ∉ t.lexeme.units ∧ (s.units[t.stop]? = none ∨ s.units[t.stop]? = some 0x0A) ∧
          t.literal = some (.string (Text.trimStart ⟨t.lexeme.units.drop 2⟩)))) ∧
    ∀ e ∈ (scan s).errors, e.kind = .invalidNumber →
      ∃ o, LongestPrefix IsNumeral (s.units.drop o) e.lexeme.units ∧
        (numberValue e.lexeme.units).isFinite = false ∧
        e.line = s.lineAt o ∧ e.column = s.columnAt o ∧ ∀ t ∈ (scan s).tokens, t.start ≠ o :=
  ⟨TokenKind.keywordFromText_eq_keyword?, fun _ ht hne => mem_tokens_longest ht hne,
    fun _ he hk => mem_errors_invalidNumber he hk⟩

end ExprFront.Scan
