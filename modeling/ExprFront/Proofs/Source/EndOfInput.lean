import ExprFront.Proofs.Scan.Positions
import ExprFront.Proofs.Parse.EndToken
import ExprFront.Proofs.Parse.Language
/-!
# The end of input past the scanned tokens

Hand a parser the tokens of a scan without the comments and without the end token, and it
makes one up past the last token left: at that token's stop, on the line where its lexeme ends,
one column past its last unit. The scanner stands at the same place after that token: the line
and column the text has at its stop, whatever line feeds and pairs of surrogates the lexeme
holds (`endTokenAfter_scanned`). When the last token ends the text, the token made up is the
scanner's own end token, and the parser cannot tell the list that lacks it from the list that
has it.

Main statement (`endTokenAfter_scan`).
-/

namespace ExprFront

namespace Scan

/-- Every token of a run stops where a walk from its start over its lexeme ends. -/
theorem scanFrom_stop_positions (s : Text) (p : Position) (us : List UInt16)
    (hs : s.units.drop p.offset = us) (hp : positionAt s p.offset = p) :
    ∀ t ∈ (scanFrom p us).tokens, t.stop = t.start + t.lexeme.length ∧
      positionAt s t.stop = (⟨t.start, t.line, t.column⟩ : Position).after t.lexeme.units := by
  induction p, us using scanFrom.induct with
  | case1 p =>
    rw [scanFrom_nil]
    intro t ht
    rw [List.mem_singleton.1 ht]
    exact ⟨rfl, hp⟩
  | case2 p u rest n _ _ h ih =>
    have hlex := lexed_of_lexAt_eq h
    rw [scanFrom_blank h]
    exact ih (drop_offset_after hs hlex.1) (positionAt_step n hs hp)
  | case3 p u rest n _ _ k lit h ih =>
    have hlex := lexed_of_lexAt_eq h
    rw [scanFrom_token h]
    intro t ht
    rcases List.mem_cons.1 ht with rfl | ht
    · refine ⟨?_, positionAt_step n hs hp⟩
      simp only [Position.offset_after_take hlex.1, Text.length, List.length_cons, List.length_take,
        Nat.min_eq_left hlex.1]
    · exact ih (drop_offset_after hs hlex.1) (positionAt_step n hs hp) t ht
  | case4 p u rest n _ _ kind text h ih =>
    have hlex := lexed_of_lexAt_eq h
    rw [scanFrom_error h]
    exact ih (drop_offset_after hs hlex.1) (positionAt_step n hs hp)

/-- The tokens of a scan: some that are not the end, then the end token where the walk over the
whole text ends. -/
theorem scan_tokens_eq (s : Text) :
    ∃ body, (scan s).tokens = body ++ [endToken (Position.initial.after s.units)] ∧
      ∀ t ∈ body, t.kind ≠ .eof :=
  (scanFrom_tokens_eq _ _).imp fun _ h => ⟨h.1, fun t ht => (h.2 t ht).1⟩

/-- The scanner's end token stands at the end of the text, with the line and column it has
there. -/
theorem endToken_scan (s : Text) :
    endToken (Position.initial.after s.units) =
      { kind := .eof, lexeme := Text.empty, literal := none, line := s.lineAt s.length,
        column := s.columnAt s.length, start := s.length, stop := s.length } := by
  have hlen : (Position.initial.after s.units).offset = s.length := by
    simp [Position.initial, Text.length]
  have hwalk : positionAt s s.length =
      ⟨s.length, (Position.initial.after s.units).line,
        (Position.initial.after s.units).column⟩ := by
    rw [positionAt, List.take_of_length_le (show s.units.length ≤ s.length from Nat.le_refl _),
      ← hlen]
  obtain ⟨hline, hcolumn⟩ := positionAt_eq_mk hwalk
  simp only [endToken, hlen, hline, hcolumn]

end Scan

open Scan

/-- The end token made up past a scanned token is the end of input the text has at its stop:
that offset, with the line and column of the text there. -/
theorem endTokenAfter_scanned {s : Text} {ts : List (Token Nat)} {t : Token Nat}
    (ht : t ∈ (scan s).tokens) (hlast : ts.getLast? = some t) :
    endTokenAfter ts =
      { kind := .eof, lexeme := Text.empty, literal := none, line := s.lineAt t.stop,
        column := s.columnAt t.stop, start := t.stop, stop := t.stop } := by
  obtain ⟨hstop, hpos⟩ := scanFrom_stop_positions s Position.initial s.units List.drop_zero rfl t ht
  -- the walk over the lexeme ends at the token's stop
  have hwalk : positionAt s t.stop =
      ⟨t.stop, ((⟨t.start, t.line, t.column⟩ : Position).after t.lexeme.units).line,
        ((⟨t.start, t.line, t.column⟩ : Position).after t.lexeme.units).column⟩ := by
    have hoff : ((⟨t.start, t.line, t.column⟩ : Position).after t.lexeme.units).offset = t.stop := by
      simp [hstop, Text.length]
    rw [hpos, ← hoff]
  obtain ⟨hline, hcolumn⟩ := positionAt_eq_mk hwalk
  rw [Position.after_line] at hline
  rw [Position.after_column] at hcolumn
  simp only [endTokenAfter, hlast, Coord.addCount_nat, Coord.ofCount_nat, Token.mk.injEq,
    true_and, and_true]
  refine ⟨by simpa [Text.count] using hline, ?_⟩
  cases hk : t.lexeme.lastIndexOf? 0x0A with
  | none => simpa [hk, Text.length] using hcolumn
  | some k => simpa [hk, Text.length] using hcolumn

/-- Past a list that ends in an empty end token, the end token made up is that token. -/
theorem endTokenAfter_append_end {ts : List (Token Nat)} {E : Token Nat} (hk : E.kind = .eof)
    (hl : E.lexeme = Text.empty) (hlit : E.literal = none) (hs : E.start = E.stop) :
    endTokenAfter (ts ++ [E]) = E := by
  obtain ⟨kind, lexeme, literal, line, column, start, stop⟩ := E
  simp only at hk hl hlit hs
  subst hk hl hlit hs
  simp [endTokenAfter, Text.count, Text.lastIndexOf?, Text.empty, Text.length]

theorem dropComments_append (xs ys : List (Token Nat)) :
    dropComments (xs ++ ys) = dropComments xs ++ dropComments ys :=
  List.filter_append xs ys

theorem dropComments_dropComments (ts : List (Token Nat)) :
    dropComments (dropComments ts) = dropComments ts := by
  simp [dropComments, List.filter_filter]

theorem parseTokens_dropComments (ts : List (Token Nat)) :
    parseTokens (dropComments ts) = parseTokens ts := by
  unfold parseTokens
  rw [dropComments_dropComments]

/-- A list of tokens followed by the end token made up past it parses as the list alone. -/
theorem parseTokens_append_endTokenAfter {u : List (Token Nat)}
    (hu : dropComments u = u) (hE : endTokenAfter (u ++ [endTokenAfter u]) = endTokenAfter u) :
    parseTokens (u ++ [endTokenAfter u]) = parseTokens u := by
  have hend := Grammar.endTokenAfter_kind u
  have hdrop : dropComments (u ++ [endTokenAfter u]) = u ++ [endTokenAfter u] := by
    rw [dropComments_append, hu]
    simp [dropComments, hend]
  have henv : Grammar.Env.ofTokens (u ++ [endTokenAfter u]) (some maxNesting) =
      Grammar.Env.ofTokens u (some maxNesting) := by
    simp only [Grammar.Env.ofTokens, hE]
  show (Grammar.parseAll (Grammar.Env.ofTokens (dropComments (u ++ [endTokenAfter u]))
      (some maxNesting)) 0 (dropComments (u ++ [endTokenAfter u]))).result =
    (Grammar.parseAll (Grammar.Env.ofTokens (dropComments u) (some maxNesting)) 0
      (dropComments u)).result
  rw [hdrop, hu, henv]
  have hpad := Grammar.parseAll_append_atEnd
    (show (Grammar.Env.ofTokens u (some maxNesting)).atEnd.kind = .eof from hend) 0 u
  exact congrArg Prod.fst hpad

/-- Take the tokens of a scan without its comments and without its end token. When some are
left, the end token a parser makes up past the last of them has that token's stop for its start
and its stop, and the line and column the text has there: one more than the line feeds before
it, and its distance from the last of them (or one more than the offset when there is none).
When that token ends the text, parsing the shortened list gives what parsing the whole scan
gives. -/
theorem endTokenAfter_scan (s : Text) (last : Token Nat)
    (hlast : (dropComments (scan s).tokens.dropLast).getLast? = some last) :
    endTokenAfter (dropComments (scan s).tokens.dropLast) =
        { kind := .eof, lexeme := Text.empty, literal := none, line := s.lineAt last.stop,
          column := s.columnAt last.stop, start := last.stop, stop := last.stop } ∧
      (last.stop = s.length →
        parseTokens (dropComments (scan s).tokens.dropLast) = parseTokens (scan s).tokens) := by
  obtain ⟨body, hbody, hbodies⟩ := scan_tokens_eq s
  have hdrop : (scan s).tokens.dropLast = body := by rw [hbody, List.dropLast_concat]
  rw [hdrop] at hlast ⊢
  have hmem : last ∈ (scan s).tokens := by
    rw [hbody]
    exact List.mem_append_left _ (List.mem_of_mem_filter (List.mem_of_getLast? hlast))
  have hE := endTokenAfter_scanned hmem hlast
  refine ⟨hE, fun hlen => ?_⟩
  -- the scanner's end token is the one made up past the last token
  have heq : endToken (Position.initial.after s.units) = endTokenAfter (dropComments body) := by
    rw [endToken_scan, hE, hlen]
  rw [hbody, ← parseTokens_dropComments (body ++ _), dropComments_append, heq]
  have htail : dropComments [endTokenAfter (dropComments body)] =
      [endTokenAfter (dropComments body)] := by
    simp [dropComments, Grammar.endTokenAfter_kind]
  rw [htail]
  refine (parseTokens_append_endTokenAfter (dropComments_dropComments body) ?_).symm
  exact endTokenAfter_append_end (Grammar.endTokenAfter_kind _) (by rw [hE]) (by rw [hE])
    (by rw [hE])

theorem endTokenAfter_scan_string :
    (dropComments (scan (Text.ofString "1 + \"a\nb\"")).tokens.dropLast).getLast? =
        some
          { kind := .string, lexeme := Text.ofString "\"a\nb\"",
            literal := some (.string (Text.ofString "a\nb")), line := 1, column := 5, start := 4,
            stop := 9 } ∧
      endTokenAfter (dropComments (scan (Text.ofString "1 + \"a\nb\"")).tokens.dropLast) =
          { kind := .eof, lexeme := Text.empty, literal := none,
            line := (Text.ofString "1 + \"a\nb\"").lineAt 9,
            column := (Text.ofString "1 + \"a\nb\"").columnAt 9, start := 9, stop := 9 } ∧
        (9 = (Text.ofString "1 + \"a\nb\"").length →
          parseTokens (dropComments (scan (Text.ofString "1 + \"a\nb\"")).tokens.dropLast) =
            parseTokens (scan (Text.ofString "1 + \"a\nb\"")).tokens) :=
  have hlast : (dropComments (scan (Text.ofString "1 + \"a\nb\"")).tokens.dropLast).getLast? =
      some
        { kind := .string, lexeme := Text.ofString "\"a\nb\"",
          literal := some (.string (Text.ofString "a\nb")), line := 1, column := 5, start := 4,
          stop := 9 } := by
    decide +kernel
  ⟨hlast, endTokenAfter_scan _ _ hlast⟩

end ExprFront
