import ExprFront.Scan.Basic
/-!
# What one step of the scanner can do

A step of the scanner looks at the next unit `u` and the units `rest` after it, and takes `u`
and `n` units of `rest`. `Lexed u rest (item, n)` says everything the later proofs need of such
a step: it takes no more than there is, a blank is one blank unit, a token is of a kind other
than the end of input, and an error's lexeme is what the text begins with. Every lexing routine
gives a `Lexed` outcome, hence so does `lexAt` (`lexAt_lexed`).

`scanFrom` then records what the step found and goes on after it. Its three step lemmas
(`scanFrom_blank`, `scanFrom_token`, `scanFrom_error`) are the only way the run lemmas of
`Proofs/Scan/Segmentation` and `Proofs/Scan/Positions` look into it.
-/

namespace ExprFront.Scan

/-- What a step at `u :: rest` may give: an item, and the units of `rest` it takes besides `u`. -/
def Lexed (u : UInt16) (rest : List UInt16) : Item × Nat → Prop
  | (item, n) => n ≤ rest.length ∧
    match item with
    | .blank => isSpace u = true ∧ n = 0
    | .token k _ => k ≠ .eof
    | .error _ text => text.units <+: u :: rest

/-- A choice between two items that take as many units. -/
theorem Lexed.ite {u : UInt16} {rest : List UInt16} {c : Prop} [Decidable c] {a b : Item}
    {n : Nat} (ha : Lexed u rest (a, n)) (hb : Lexed u rest (b, n)) :
    Lexed u rest (if c then (a, n) else (b, n)) := by
  split
  · exact ha
  · exact hb

theorem TokenKind.keyword?_ne_eof {t : Text} {k : TokenKind} (h : TokenKind.keyword? t = some k) :
    k ≠ .eof := by
  obtain ⟨w, hw, rfl⟩ := Option.map_eq_some_iff.1 h
  have hmem := List.mem_of_find?_eq_some hw
  have hkeys : ∀ w ∈ TokenKind.keywords, w.2 ≠ .eof := by decide
  exact hkeys w hmem

theorem closeBlock_le {depth taken k : Nat} {body : List UInt16}
    (h : closeBlock depth taken body = some k) : k ≤ taken + body.length := by
  fun_induction closeBlock depth taken body with
  | case1 => cases h
  | case2 depth taken rest ih => have := ih h; simp only [List.length_cons]; omega
  | case3 depth taken rest hd => cases h; simp only [List.length_cons]; omega
  | case4 depth taken rest hd ih => have := ih h; simp only [List.length_cons]; omega
  | case5 depth taken v rest _ _ ih => have := ih h; simp only [List.length_cons]; omega

theorem lexSlash_lexed (rest : List UInt16) : Lexed 0x2F rest (lexSlash rest) := by
  unfold lexSlash
  split
  · -- a line comment up to the line feed
    rename_i body
    exact ⟨by simpa using (List.takeWhile_prefix _).length_le, by simp [comment]⟩
  · rename_i body
    split
    · rename_i k hk
      exact ⟨by simpa using closeBlock_le hk, by simp [comment]⟩
    · refine ⟨Nat.le_refl _, ?_⟩
      show (Text.ofString "/*").units <+: 0x2F :: 0x2A :: body
      rw [show (Text.ofString "/*").units = [0x2F, 0x2A] by decide]
      exact List.cons_prefix_cons.2 ⟨rfl, List.cons_prefix_cons.2 ⟨rfl, List.nil_prefix⟩⟩
  · exact ⟨Nat.zero_le _, (by decide : TokenKind.slash ≠ .eof)⟩

theorem lexString_lexed (rest : List UInt16) : Lexed 0x22 rest (lexString rest) := by
  unfold lexString
  dsimp only
  split
  · exact ⟨by omega, (by decide : TokenKind.string ≠ .eof)⟩
  · exact ⟨Nat.le_refl _, List.prefix_refl _⟩

/-- The fraction of a number takes a point and the digits after it, all within what follows
the whole part. -/
theorem fraction_le (l : List UInt16) :
    (match l with
      | 0x2E :: d :: more => if isDigit d then ((d :: more).takeWhile isDigit).length + 1 else 0
      | _ => 0) ≤ l.length := by
  split
  · rename_i d more
    split
    · have := (List.takeWhile_prefix isDigit : (d :: more).takeWhile isDigit <+: d :: more).length_le
      simp only [List.length_cons] at this ⊢
      omega
    · exact Nat.zero_le _
  · exact Nat.zero_le _

theorem lexNumber_lexed (u : UInt16) (rest : List UInt16) : Lexed u rest (lexNumber u rest) := by
  have hle : (rest.takeWhile isDigit).length +
      (match rest.drop (rest.takeWhile isDigit).length with
        | 0x2E :: d :: more => if isDigit d then ((d :: more).takeWhile isDigit).length + 1 else 0
        | _ => 0) ≤ rest.length := by
    have hfraction := fraction_le (rest.drop (rest.takeWhile isDigit).length)
    rw [List.length_drop] at hfraction
    have hwhole : (rest.takeWhile isDigit).length ≤ rest.length :=
      (List.takeWhile_prefix _).length_le
    omega
  unfold lexNumber
  dsimp only
  apply Lexed.ite
  · exact ⟨hle, (by decide : TokenKind.number ≠ .eof)⟩
  · exact ⟨hle, List.cons_prefix_cons.2 ⟨rfl, List.take_prefix _ _⟩⟩

theorem lexName_lexed (u : UInt16) (rest : List UInt16) : Lexed u rest (lexName u rest) := by
  have hle : (rest.takeWhile isNamePart).length ≤ rest.length := (List.takeWhile_prefix _).length_le
  unfold lexName
  dsimp only
  rw [TokenKind.keywordFromText_eq_keyword?]
  split
  · rename_i k hk
    exact ⟨hle, TokenKind.keyword?_ne_eof hk⟩
  · exact ⟨hle, (by decide : TokenKind.identifier ≠ .eof)⟩

theorem lexUnexpected_lexed (u : UInt16) (rest : List UInt16) :
    Lexed u rest (lexUnexpected u rest) := by
  unfold lexUnexpected
  split
  · rename_i v more
    split
    · exact ⟨by simp, List.cons_prefix_cons.2 ⟨rfl, List.cons_prefix_cons.2 ⟨rfl, List.nil_prefix⟩⟩⟩
    · exact ⟨Nat.zero_le _, List.cons_prefix_cons.2 ⟨rfl, List.nil_prefix⟩⟩
  · exact ⟨Nat.zero_le _, List.prefix_refl _⟩

theorem singleKind?_ne_eof {u : UInt16} {k : TokenKind} (h : singleKind? u = some k) :
    k ≠ .eof := by
  unfold singleKind? at h
  split at h <;> cases h <;> decide

theorem pairKinds?_ne_eof {u : UInt16} {a b : TokenKind} (h : pairKinds? u = some (a, b)) :
    a ≠ .eof ∧ b ≠ .eof := by
  unfold pairKinds? at h
  split at h <;> cases h <;> decide

/-- Every step the scanner takes is one of those `Lexed` allows. -/
theorem lexAt_lexed (u : UInt16) (rest : List UInt16) : Lexed u rest (lexAt u rest) := by
  unfold lexAt
  split
  · rename_i hspace
    exact ⟨Nat.zero_le _, hspace, rfl⟩
  split
  · rename_i k hk
    exact ⟨Nat.zero_le _, singleKind?_ne_eof hk⟩
  split
  · -- `!`, `=`, `<` and `>`, with or without a following `=`
    rename_i alone withEqual hk
    have hne := pairKinds?_ne_eof hk
    split
    · exact ⟨by simp, hne.2⟩
    · exact ⟨Nat.zero_le _, hne.1⟩
  split
  · rename_i hslash
    rw [show u = 0x2F from by simpa using hslash]
    exact lexSlash_lexed rest
  split
  · rename_i hquote
    rw [show u = 0x22 from by simpa using hquote]
    exact lexString_lexed rest
  split
  · exact lexNumber_lexed u rest
  split
  · exact lexName_lexed u rest
  · exact lexUnexpected_lexed u rest

theorem lexed_of_lexAt_eq {u : UInt16} {rest : List UInt16} {item : Item} {n : Nat}
    (h : lexAt u rest = (item, n)) : Lexed u rest (item, n) :=
  h ▸ lexAt_lexed u rest

/-! ## The scanner after one step -/

/-- Where a step that took `u` and `n` units of `rest` leaves the scanner, it goes on where a
walk over the whole of `u :: rest` ends. -/
theorem Position.after_take_drop (p : Position) (u : UInt16) (rest : List UInt16) (n : Nat) :
    (p.after (u :: rest.take n)).after (rest.drop n) = p.after (u :: rest) := by
  rw [← Position.after_append, List.cons_append, List.take_append_drop]

theorem Position.offset_after_take {p : Position} {u : UInt16} {rest : List UInt16} {n : Nat}
    (hn : n ≤ rest.length) : (p.after (u :: rest.take n)).offset = p.offset + (n + 1) := by
  simp only [Position.offset_after, List.length_cons, List.length_take, Nat.min_eq_left hn]

theorem scanFrom_nil (p : Position) : scanFrom p [] = ⟨[endToken p], []⟩ := by
  rw [scanFrom]

section Step

variable {p : Position} {u : UInt16} {rest : List UInt16} {n : Nat}

theorem scanFrom_blank (h : lexAt u rest = (.blank, n)) :
    scanFrom p (u :: rest) = scanFrom (p.after (u :: rest.take n)) (rest.drop n) := by
  rw [scanFrom.eq_2, h]

theorem scanFrom_token {k : TokenKind} {lit : Option Literal}
    (h : lexAt u rest = (.token k lit, n)) :
    scanFrom p (u :: rest) =
      ⟨{ kind := k, lexeme := ⟨u :: rest.take n⟩, literal := lit, line := p.line,
          column := p.column, start := p.offset, stop := (p.after (u :: rest.take n)).offset } ::
        (scanFrom (p.after (u :: rest.take n)) (rest.drop n)).tokens,
        (scanFrom (p.after (u :: rest.take n)) (rest.drop n)).errors⟩ := by
  rw [scanFrom.eq_2, h]

theorem scanFrom_error {kind : ScanErrorKind} {text : Text}
    (h : lexAt u rest = (.error kind text, n)) :
    scanFrom p (u :: rest) =
      ⟨(scanFrom (p.after (u :: rest.take n)) (rest.drop n)).tokens,
        ⟨kind, text, p.line, p.column⟩ ::
          (scanFrom (p.after (u :: rest.take n)) (rest.drop n)).errors⟩ := by
  rw [scanFrom.eq_2, h]

end Step

end ExprFront.Scan
