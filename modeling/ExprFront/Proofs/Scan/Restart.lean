import ExprFront.Proofs.Scan.Positions
/-!
# Scanning starts afresh after a line feed

The scanner keeps nothing from one item to the next but its position, and no lexeme reaches
across a line feed except a string or a block comment still open where the text ends: a line
comment stops just before the line feed, and every other lexeme stops at the first unit outside
its class, which a line feed never belongs to. Where a routine looks one or two units ahead
(`!` before `=`, `/` before `/` or `*`, a point before a digit, a high surrogate before a low
one), a line feed answers as the end of the text does.

So when scanning a text `a` ends no string or comment left open, scanning `a`, a line feed and
`b` gives the tokens of `a` but its end token and the errors of `a`, then the tokens and errors
of `b` moved past the line feed: offsets by the length of `a` and one, lines by the line feeds of
`a` and one. Columns stay as they are, since `b` then starts a line just as a text does.

The proof has two halves: a run over `a` followed by a line feed is the run over `a`
(`scanFrom_append_newline`, from one step lemma per lexing routine), and a run from a position
further on is the same run moved (`scanFrom_shift`).

Main statement (`scan_append_newline`).
-/

namespace ExprFront

/-- The errors of a string or a block comment still open where the text ends: they take the
rest of the text, whatever it holds. -/
def ScanErrorKind.runsToEnd : ScanErrorKind → Bool
  | .unterminatedString | .unterminatedBlockComment => true
  | .unexpectedCharacter | .invalidNumber => false

theorem ScanErrorKind.runsToEnd_eq_false {k : ScanErrorKind} :
    k.runsToEnd = false ↔ k ≠ .unterminatedString ∧ k ≠ .unterminatedBlockComment := by
  cases k <;> simp [ScanErrorKind.runsToEnd]

/-- A token read `o` units and `l` lines further into a text, in the same column. -/
def Token.shift (t : Token Nat) (o l : Nat) : Token Nat :=
  { t with line := t.line + l, start := t.start + o, stop := t.stop + o }

/-- An error found `l` lines further into a text, in the same column. -/
def ScanError.shift (e : ScanError) (l : Nat) : ScanError := { e with line := e.line + l }

namespace Scan

/-- An item that takes the rest of the text, whatever it holds. -/
def Item.runsToEnd : Item → Bool
  | .error kind _ => kind.runsToEnd
  | _ => false

/-- A position `o` units and `l` lines further on, in the same column. -/
def Position.shift (p : Position) (o l : Nat) : Position := ⟨p.offset + o, p.line + l, p.column⟩

/-- A scan result moved `o` units and `l` lines further into a text. -/
def Result.shift (r : Result) (o l : Nat) : Result :=
  ⟨r.tokens.map (·.shift o l), r.errors.map (·.shift l)⟩

/-! ## A run from further on -/

theorem Position.step_shift (p : Position) (o l : Nat) (u : UInt16) :
    (p.shift o l).step u = (p.step u).shift o l := by
  by_cases hu : u = 0x0A
  · simp only [Position.step, Position.shift, hu, beq_self_eq_true, if_true, Position.mk.injEq,
      and_true]
    omega
  · simp only [Position.step, Position.shift, beq_iff_eq, hu, if_false, Position.mk.injEq,
      and_true]
    omega

theorem Position.after_shift (p : Position) (o l : Nat) (us : List UInt16) :
    (p.shift o l).after us = (p.after us).shift o l := by
  induction us generalizing p with
  | nil => rfl
  | cons u us ih => rw [after_cons, after_cons, step_shift, ih]

/-- A run from a position further on gives the same tokens and errors, moved as far. -/
theorem scanFrom_shift (p : Position) (o l : Nat) (us : List UInt16) :
    scanFrom (p.shift o l) us = (scanFrom p us).shift o l := by
  induction p, us using scanFrom.induct with
  | case1 p =>
    rw [scanFrom_nil, scanFrom_nil]
    rfl
  | case2 p u rest n _ _ h ih =>
    rw [scanFrom_blank h, scanFrom_blank h, Position.after_shift, ih]
  | case3 p u rest n _ _ k lit h ih =>
    rw [scanFrom_token h, scanFrom_token h, Position.after_shift, ih]
    rfl
  | case4 p u rest n _ _ kind text h ih =>
    rw [scanFrom_error h, scanFrom_error h, Position.after_shift, ih]
    rfl

/-! ## A line feed after the text -/

/-- Reading a class of units stops at a unit outside it, wherever that unit comes. -/
theorem takeWhile_append_cons_of_not (p : UInt16 → Bool) (v : UInt16) (hv : p v = false)
    (rest more : List UInt16) : (rest ++ v :: more).takeWhile p = rest.takeWhile p := by
  rw [List.takeWhile_append]
  split
  · rename_i hall
    rw [List.takeWhile_cons, if_neg (by simp [hv]), List.append_nil]
    exact ((List.takeWhile_prefix p).eq_of_length hall).symm
  · rfl

/-- Reading a class of units that stops inside a list stops there whatever follows. -/
theorem takeWhile_append_of_lt {p : UInt16 → Bool} {rest : List UInt16}
    (h : (rest.takeWhile p).length < rest.length) (more : List UInt16) :
    (rest ++ more).takeWhile p = rest.takeWhile p := by
  rw [List.takeWhile_append, if_neg (Nat.ne_of_lt h)]

/-- A block comment closed within a list is closed at the same place whatever follows. -/
theorem closeBlock_append {depth taken k : Nat} {body : List UInt16} (more : List UInt16)
    (h : closeBlock depth taken body = some k) : closeBlock depth taken (body ++ more) = some k := by
  fun_induction closeBlock depth taken body with
  | case1 => cases h
  | case2 depth taken rest ih =>
    rw [List.cons_append, List.cons_append, closeBlock]
    exact ih h
  | case3 depth taken rest hd =>
    rw [List.cons_append, List.cons_append, closeBlock, if_pos hd]
    exact h
  | case4 depth taken rest hd ih =>
    rw [List.cons_append, List.cons_append, closeBlock, if_neg hd]
    exact ih h
  | case5 depth taken v rest h2F h2A ih =>
    -- a unit with nothing after it closes nothing, so a unit follows and the pattern is kept
    cases rest with
    | nil =>
      rw [closeBlock] at h
      cases h
    | cons w rest =>
      rw [List.cons_append, List.cons_append, closeBlock.eq_4 _ _ _ _
        (fun _ hv hw => h2F rest hv (by rw [(List.cons.inj hw).1]))
        (fun _ hv hw => h2A rest hv (by rw [(List.cons.inj hw).1]))]
      exact ih h

theorem lexSlash_append_newline {rest : List UInt16} (hend : (lexSlash rest).1.runsToEnd = false)
    (more : List UInt16) : lexSlash (rest ++ 0x0A :: more) = lexSlash rest := by
  rcases rest with _ | ⟨v, body⟩
  · rfl
  by_cases h2F : v = 0x2F
  · -- a line comment stops just before the line feed
    subst h2F
    have hn := (List.takeWhile_prefix (· != 0x0A) (l := body)).length_le
    simp only [lexSlash, List.cons_append, takeWhile_append_cons_of_not (· != 0x0A) 0x0A rfl,
      List.take_append_of_le_length hn]
  by_cases h2A : v = 0x2A
  · subst h2A
    cases hk : closeBlock 1 0 body with
    | none => simp [lexSlash, hk, Item.runsToEnd, ScanErrorKind.runsToEnd] at hend
    | some k =>
      have hle : k - 2 ≤ body.length := by have := closeBlock_le hk; omega
      simp only [lexSlash, List.cons_append, closeBlock_append _ hk, hk,
        List.take_append_of_le_length hle]
  · simp [lexSlash, h2F, h2A]

theorem lexString_append_newline {rest : List UInt16}
    (hend : (lexString rest).1.runsToEnd = false) (more : List UInt16) :
    lexString (rest ++ 0x0A :: more) = lexString rest := by
  unfold lexString at hend ⊢
  by_cases hlt : (rest.takeWhile (· != 0x22)).length < rest.length
  · have hlt' : (rest.takeWhile (· != 0x22)).length < (rest ++ 0x0A :: more).length := by
      simp only [List.length_append, List.length_cons]
      omega
    simp only [takeWhile_append_of_lt hlt, if_pos hlt, if_pos hlt',
      List.take_append_of_le_length hlt.le]
  · -- the string is still open at the end
    simp [if_neg hlt, Item.runsToEnd, ScanErrorKind.runsToEnd] at hend

/-- How many units a fraction adds to the digits of a number: the point and the digits after
it, when a digit follows the point. -/
def fractionLength : List UInt16 → Nat
  | 0x2E :: d :: more => if isDigit d then ((d :: more).takeWhile isDigit).length + 1 else 0
  | _ => 0

/-- A number of `n` units after its first digit `u`, with its value, or an error when that is
infinite. -/
def numberItem (u : UInt16) (rest : List UInt16) (n : Nat) : Item × Nat :=
  if (numberValue (u :: rest.take n)).isFinite then
    (.token .number (some (.number (numberValue (u :: rest.take n)))), n)
  else (.error .invalidNumber ⟨u :: rest.take n⟩, n)

/-- A number takes its digits, then its fraction. -/
theorem lexNumber_eq (u : UInt16) (rest : List UInt16) :
    lexNumber u rest = numberItem u rest ((rest.takeWhile isDigit).length +
      fractionLength (rest.drop (rest.takeWhile isDigit).length)) := rfl

theorem numberItem_snd (u : UInt16) (rest : List UInt16) (n : Nat) : (numberItem u rest n).2 = n := by
  unfold numberItem
  split <;> rfl

theorem fractionLength_append_newline (l more : List UInt16) :
    fractionLength (l ++ 0x0A :: more) = fractionLength l := by
  rcases l with _ | ⟨v, _ | ⟨d, l⟩⟩
  · rfl
  · -- a point with nothing after it is no fraction, nor is it before a line feed
    by_cases hv : v = 0x2E
    · subst hv
      rfl
    · simp [fractionLength, hv]
  · by_cases hv : v = 0x2E
    · subst hv
      simp only [fractionLength, List.cons_append]
      rw [← List.cons_append, takeWhile_append_cons_of_not isDigit 0x0A rfl]
    · simp [fractionLength, hv]

theorem lexNumber_append_newline (u : UInt16) (rest more : List UInt16) :
    lexNumber u (rest ++ 0x0A :: more) = lexNumber u rest := by
  have hwhole := (List.takeWhile_prefix isDigit (l := rest)).length_le
  have hn : (lexNumber u rest).2 ≤ rest.length := (lexNumber_lexed u rest).1
  rw [lexNumber_eq, numberItem_snd] at hn
  rw [lexNumber_eq, lexNumber_eq, takeWhile_append_cons_of_not isDigit 0x0A rfl,
    List.drop_append_of_le_length hwhole, fractionLength_append_newline]
  unfold numberItem
  rw [List.take_append_of_le_length hn]

theorem lexName_append_newline (u : UInt16) (rest more : List UInt16) :
    lexName u (rest ++ 0x0A :: more) = lexName u rest := by
  have hn := (List.takeWhile_prefix isNamePart (l := rest)).length_le
  simp only [lexName, takeWhile_append_cons_of_not isNamePart 0x0A rfl,
    List.take_append_of_le_length hn]

theorem lexUnexpected_append_newline (u : UInt16) (rest more : List UInt16) :
    lexUnexpected u (rest ++ 0x0A :: more) = lexUnexpected u rest := by
  cases rest with
  | nil => simp [lexUnexpected, Text.isLowSurrogate]
  | cons v rest => rfl

/-- A step that leaves no string or comment open reads the same before a line feed as at the
end of the text. -/
theorem lexAt_append_newline {u : UInt16} {rest : List UInt16}
    (hend : (lexAt u rest).1.runsToEnd = false) (more : List UInt16) :
    lexAt u (rest ++ 0x0A :: more) = lexAt u rest := by
  unfold lexAt at hend ⊢
  split
  · rfl
  split
  · rfl
  split
  · -- `!`, `=`, `<` and `>`: a line feed is no `=`
    rcases rest with _ | ⟨v, rest⟩
    · rfl
    · by_cases hv : v = 0x3D
      · subst hv
        rfl
      · simp [hv]
  rename_i hsp _ hsingle _ hpair
  simp only [hsp, hsingle, hpair, Bool.false_eq_true, ↓reduceIte] at hend
  split
  · rename_i hslash
    simp only [hslash, ↓reduceIte] at hend
    exact lexSlash_append_newline hend more
  rename_i hslash
  split
  · rename_i hquote
    simp only [hslash, hquote, Bool.false_eq_true, ↓reduceIte] at hend
    exact lexString_append_newline hend more
  split
  · exact lexNumber_append_newline u rest more
  split
  · exact lexName_append_newline u rest more
  · exact lexUnexpected_append_newline u rest more

theorem Position.after_take_drop_append (p : Position) (u : UInt16) (rest tail : List UInt16)
    (n : Nat) :
    (p.after (u :: rest.take n)).after (rest.drop n ++ tail) = p.after ((u :: rest) ++ tail) := by
  rw [Position.after_append, Position.after_take_drop, ← Position.after_append]

/-- A line feed after some units starts the next line. -/
theorem Position.after_newline (p : Position) (us : List UInt16) :
    p.after (us ++ [0x0A]) = ⟨p.offset + us.length + 1, p.line + us.count 0x0A + 1, 1⟩ := by
  rw [after_append, after_cons, after_nil]
  simp [step, after_line]

/-- A run over units that leave no string or comment open, then a line feed and more: the run
over those units without its end token, then the run from past the line feed. -/
theorem scanFrom_append_newline (p : Position) (us more : List UInt16)
    (hend : ∀ e ∈ (scanFrom p us).errors, e.kind.runsToEnd = false) :
    scanFrom p (us ++ 0x0A :: more) =
      ⟨(scanFrom p us).tokens.dropLast ++ (scanFrom (p.after (us ++ [0x0A])) more).tokens,
        (scanFrom p us).errors ++ (scanFrom (p.after (us ++ [0x0A])) more).errors⟩ := by
  induction p, us using scanFrom.induct with
  | case1 p =>
    -- the line feed itself is blank
    rw [List.nil_append, scanFrom_blank (n := 0) rfl, scanFrom_nil]
    rfl
  | case2 p u rest n _ _ h ih =>
    have hn := (lexed_of_lexAt_eq h).1
    rw [scanFrom_blank h] at hend ⊢
    rw [List.cons_append, scanFrom_blank ((lexAt_append_newline (by rw [h]; rfl) more).trans h),
      List.take_append_of_le_length hn, List.drop_append_of_le_length hn, ih hend,
      Position.after_take_drop_append]
  | case3 p u rest n _ _ k lit h ih =>
    have hn := (lexed_of_lexAt_eq h).1
    have hne := scanFrom_tokens_ne_nil (p.after (u :: rest.take n)) (rest.drop n)
    rw [scanFrom_token h] at hend ⊢
    rw [List.cons_append, scanFrom_token ((lexAt_append_newline (by rw [h]; rfl) more).trans h),
      List.take_append_of_le_length hn, List.drop_append_of_le_length hn, ih hend,
      Position.after_take_drop_append, List.dropLast_cons_of_ne_nil hne]
    rfl
  | case4 p u rest n _ _ kind text h ih =>
    have hn := (lexed_of_lexAt_eq h).1
    rw [scanFrom_error h] at hend ⊢
    have hkind : kind.runsToEnd = false := hend _ List.mem_cons_self
    rw [List.cons_append, scanFrom_error ((lexAt_append_newline (by rw [h]; exact hkind) more).trans h),
      List.take_append_of_le_length hn, List.drop_append_of_le_length hn,
      ih (fun e he => hend e (List.mem_cons_of_mem _ he)), Position.after_take_drop_append]
    rfl

/-- Scanning `a`, a line feed and `b`, where `a` leaves no string or block comment open: the
tokens of `a` but its end token, then those of `b` with offsets moved past `a` and the line
feed and lines moved by the line feeds of `a` and one, columns kept; and the errors of `a`, then
those of `b` moved as many lines. -/
theorem scan_append_newline (a b : Text)
    (ha : ∀ e ∈ (scan a).errors,
      e.kind ≠ .unterminatedString ∧ e.kind ≠ .unterminatedBlockComment) :
    (scan (a ++ Text.ofString "\n" ++ b)).tokens =
        (scan a).tokens.dropLast ++ (scan b).tokens.map (·.shift (a.length + 1) (1 + a.count 0x0A)) ∧
      (scan (a ++ Text.ofString "\n" ++ b)).errors =
        (scan a).errors ++ (scan b).errors.map (·.shift (1 + a.count 0x0A)) := by
  have hend : ∀ e ∈ (scan a).errors, e.kind.runsToEnd = false :=
    fun e he => ScanErrorKind.runsToEnd_eq_false.2 (ha e he)
  have hunits : (a ++ Text.ofString "\n" ++ b).units = a.units ++ 0x0A :: b.units := by
    rw [Text.units_append, Text.units_append, show (Text.ofString "\n").units = [0x0A] from rfl,
      List.append_assoc, List.singleton_append]
  -- past the line feed the scanner stands where a fresh one does, moved
  have hstart : Position.initial.after (a.units ++ [0x0A]) =
      Position.initial.shift (a.length + 1) (1 + a.count 0x0A) := by
    rw [Position.after_newline]
    simp only [Position.initial, Position.shift, Position.mk.injEq, Text.length, Text.count,
      and_true]
    omega
  unfold scan
  rw [hunits, scanFrom_append_newline _ _ _ hend, hstart, scanFrom_shift]
  exact ⟨rfl, rfl⟩

/-- `# !`, an unexpected character and a `!`, then a line feed and `= 2`: the `!` keeps to its
line, and the error in the first line stays where it was. -/
theorem scan_append_newline_bang :
    (∀ e ∈ (scan (Text.ofString "# !")).errors,
      e.kind ≠ .unterminatedString ∧ e.kind ≠ .unterminatedBlockComment) ∧
    (scan (Text.ofString "# !" ++ Text.ofString "\n" ++ Text.ofString "= 2")).tokens =
        (scan (Text.ofString "# !")).tokens.dropLast ++
          (scan (Text.ofString "= 2")).tokens.map
            (·.shift ((Text.ofString "# !").length + 1) (1 + (Text.ofString "# !").count 0x0A)) ∧
      (scan (Text.ofString "# !" ++ Text.ofString "\n" ++ Text.ofString "= 2")).errors =
        (scan (Text.ofString "# !")).errors ++
          (scan (Text.ofString "= 2")).errors.map (·.shift (1 + (Text.ofString "# !").count 0x0A)) :=
  have ha : ∀ e ∈ (scan (Text.ofString "# !")).errors,
      e.kind ≠ .unterminatedString ∧ e.kind ≠ .unterminatedBlockComment := by
    decide +kernel
  ⟨ha, scan_append_newline _ _ ha⟩

end Scan

end ExprFront
