import ExprFront.Proofs.Scan.Step
/-!
# Scanning a text piece by piece

A text made of pieces scans as its pieces do, as long as no lexeme reaches across a seam.
`Scans F p w ts` says that the scanner, standing at `p`, reads `w` as the tokens `ts` with no
error and then goes on as it would from the end of `w`, whatever follows `w`, so long as the
first unit that follows satisfies `F`. Two pieces join (`Scans.append`) when the first unit of
the second is one the first allows.

The pieces are blanks and single tokens (`LexesAs`). What a token allows after it is what
cannot extend its lexeme: a number no digit and no point, a word no letter, digit or `_`, and
an operator no `=` (which would join `!`, `<`, `>` or `=`) and no `/` or `*` (which would
turn `/` into a comment). The lexeme of every punctuation token a scan gives reads back on its
own (`scanFrom_rereads`), and so do numerals and words.

## Main definitions

* `Scan.HeadIn`: a condition on the first unit of a list, if it has one.
* `Scan.LexesAs`: a list of units is one token, whatever allowed follows it.
* `Scan.Scans`: a list of units is scanned into given tokens, whatever allowed follows it.
* `Scan.isPunctuation`, `Scan.opFollows`: the kinds of punctuation tokens, and what may follow
  one.
* `Scan.IsNumeral`: digits, with an optional fraction.
-/

namespace ExprFront.Scan

/-- The first unit of `us`, if there is one, satisfies `F`. -/
def HeadIn (F : UInt16 → Prop) (us : List UInt16) : Prop := ∀ v ∈ us.head?, F v

section HeadIn

variable {F G : UInt16 → Prop} {us more : List UInt16}

theorem headIn_nil (F : UInt16 → Prop) : HeadIn F [] := by
  simp [HeadIn]

@[simp] theorem headIn_cons {v : UInt16} : HeadIn F (v :: us) ↔ F v := by
  simp [HeadIn]

/-- What follows `us` is what follows its end: when `us` is empty, what follows it. -/
theorem HeadIn.append (h : HeadIn F us) (hGF : ∀ v, G v → F v) (hmore : HeadIn G more) :
    HeadIn F (us ++ more) := by
  cases us with
  | nil => exact fun v hv => hGF v (hmore v hv)
  | cons u us => simpa using h

end HeadIn

/-- `w` is read as one token of kind `k` carrying `lit`, which takes all of `w` and nothing
after it, whenever what follows `w` is allowed by `F`. -/
def LexesAs (F : UInt16 → Prop) (k : TokenKind) (lit : Option Literal) (w : List UInt16) :
    Prop :=
  ∃ u rest, w = u :: rest ∧
    ∀ more, HeadIn F more → lexAt u (rest ++ more) = (.token k lit, rest.length)

theorem LexesAs.mono {F G : UInt16 → Prop} {k : TokenKind} {lit : Option Literal}
    {w : List UInt16} (h : LexesAs F k lit w) (hGF : ∀ v, G v → F v) : LexesAs G k lit w := by
  obtain ⟨u, rest, hw, hlex⟩ := h
  exact ⟨u, rest, hw, fun more hmore => hlex more fun v hv => hGF v (hmore v hv)⟩

/-- The token the scanner records for the lexeme `w` read at `p`. -/
def tokenAt (p : Position) (k : TokenKind) (lit : Option Literal) (w : List UInt16) :
    Token Nat :=
  { kind := k, lexeme := ⟨w⟩, literal := lit, line := p.line, column := p.column,
    start := p.offset, stop := (p.after w).offset }

/-- From `p` the scanner reads `w` as the tokens `ts`, with no error, and then goes on as from
the end of `w`, whatever follows `w` that `F` allows. -/
def Scans (F : UInt16 → Prop) (p : Position) (w : List UInt16) (ts : List (Token Nat)) : Prop :=
  ∀ more, HeadIn F more →
    scanFrom p (w ++ more) =
      ⟨ts ++ (scanFrom (p.after w) more).tokens, (scanFrom (p.after w) more).errors⟩

namespace Scans

variable {F G : UInt16 → Prop} {p q : Position} {w a b : List UInt16} {ts us : List (Token Nat)}

theorem mono (h : Scans F p w ts) (hGF : ∀ v, G v → F v) : Scans G p w ts :=
  fun more hmore => h more fun v hv => hGF v (hmore v hv)

/-- A space is skipped. -/
theorem blank (p : Position) : Scans (fun _ => True) p [0x20] [] := by
  intro more _
  rw [List.singleton_append, scanFrom_blank (n := 0) rfl]
  rfl

theorem token {k : TokenKind} {lit : Option Literal} (h : LexesAs F k lit w) (p : Position) :
    Scans F p w [tokenAt p k lit w] := by
  obtain ⟨u, rest, rfl, hlex⟩ := h
  intro more hmore
  rw [List.cons_append, scanFrom_token (hlex more hmore), List.take_left, List.drop_left]
  rfl

/-- Two pieces in a row, the second starting with a unit that the first allows. -/
theorem append (h₁ : Scans F p a ts) (h₂ : Scans G q b us) (hq : q = p.after a)
    (hb : HeadIn F b) (hGF : ∀ v, G v → F v) : Scans G p (a ++ b) (ts ++ us) := by
  subst hq
  intro more hmore
  rw [List.append_assoc, h₁ (b ++ more) (hb.append hGF hmore), h₂ more hmore,
    Position.after_append, List.append_assoc]

/-- A space, then a piece. -/
theorem space_then (h : Scans G q b us) (hq : q = p.after [0x20]) :
    Scans G p (0x20 :: b) us := by
  simpa using (blank p).append h hq (fun _ _ => trivial) fun _ _ => trivial

/-- Scanned to its end, the text gives its tokens, then the end token, and no error. -/
theorem scanFrom_eq (h : Scans F p w ts) : scanFrom p w = ⟨ts ++ [endToken (p.after w)], []⟩ := by
  have := h [] (headIn_nil F)
  rwa [List.append_nil, scanFrom_nil] at this

end Scans

/-! ## Punctuation -/

/-- The kinds spelled by punctuation: the single marks, and `!`, `=`, `<` and `>` alone or
followed by `=`. -/
def isPunctuation (k : TokenKind) : Bool :=
  k.symbol?.isSome ||
    k ∈ [.bang, .bangEqual, .equal, .equalEqual, .less, .lessEqual, .greater, .greaterEqual]

/-- What may follow an operator without joining it: no `=` and no `/` or `*`. -/
def opFollows (v : UInt16) : Prop := v ≠ 0x3D ∧ v ≠ 0x2F ∧ v ≠ 0x2A

instance : DecidablePred opFollows := fun _ => inferInstanceAs (Decidable (_ ∧ _))

theorem keyword?_not_isPunctuation {t : Text} {k : TokenKind}
    (h : TokenKind.keyword? t = some k) : isPunctuation k = false := by
  obtain ⟨w, hw, rfl⟩ := Option.map_eq_some_iff.1 h
  have hkeys : ∀ w ∈ TokenKind.keywords, isPunctuation w.2 = false := by decide
  exact hkeys w (List.mem_of_find?_eq_some hw)

/-- A step that gives a token of one kind or an error. -/
theorem token_kind_of_ite {c : Prop} [Decidable c] {k₀ k : TokenKind} {a lit : Option Literal}
    {e : ScanErrorKind} {t : Text} {m m' n : Nat}
    (h : (if c then (Item.token k₀ a, m) else (Item.error e t, m')) = (.token k lit, n)) :
    k = k₀ := by
  split at h <;> simp_all

/-- After `/` comes a comment or the slash alone. -/
theorem lexSlash_token {rest : List UInt16} {k : TokenKind} {lit : Option Literal} {n : Nat}
    (h : lexSlash rest = (.token k lit, n)) : k = .comment ∨ (k = .slash ∧ lit = none ∧ n = 0) := by
  unfold lexSlash at h
  split at h
  · simp only [comment, Prod.mk.injEq, Item.token.injEq] at h
    exact .inl h.1.1.symm
  · split at h
    · simp only [comment, Prod.mk.injEq, Item.token.injEq] at h
      exact .inl h.1.1.symm
    · cases h
  · cases h
    exact .inr ⟨rfl, rfl, rfl⟩

/-- A word is a keyword or a name, never punctuation. -/
theorem lexName_not_punctuation {u : UInt16} {rest : List UInt16} {k : TokenKind}
    {lit : Option Literal} {n : Nat} (h : lexName u rest = (.token k lit, n)) :
    isPunctuation k = false := by
  unfold lexName at h
  dsimp only at h
  rw [TokenKind.keywordFromText_eq_keyword?] at h
  split at h
  · rename_i kw hkw
    simp only [Prod.mk.injEq, Item.token.injEq] at h
    rw [← h.1.1]
    exact keyword?_not_isPunctuation hkw
  · simp only [Prod.mk.injEq, Item.token.injEq] at h
    rw [← h.1.1]
    rfl

/-- A step that reads a punctuation token reads it again from its lexeme alone, whatever
follows that does not join an operator; and the token carries no literal. -/
theorem lexesAs_of_lexAt {u : UInt16} {rest : List UInt16} {k : TokenKind}
    {lit : Option Literal} {n : Nat} (h : lexAt u rest = (.token k lit, n))
    (hk : isPunctuation k = true) : lit = none ∧ LexesAs opFollows k none (u :: rest.take n) := by
  unfold lexAt at h
  split at h
  · cases h
  rename_i hsp
  split at h
  · -- a single mark
    rename_i k' hk'
    cases h
    exact ⟨rfl, u, [], by simp, fun more _ => by simp [lexAt, hsp, hk']⟩
  rename_i hsingle
  split at h
  · rename_i alone withEqual hpair
    split at h
    · -- `!`, `=`, `<` or `>` with `=`
      rename_i tail
      cases h
      exact ⟨rfl, u, [0x3D], by simp, fun more _ => by simp [lexAt, hsp, hsingle, hpair]⟩
    · -- alone, which it stays while no `=` follows
      cases h
      refine ⟨rfl, u, [], by simp, fun more hmore => ?_⟩
      cases more with
      | nil => simp [lexAt, hsp, hsingle, hpair]
      | cons v more =>
        have hv : v ≠ 0x3D := ((headIn_cons).1 hmore).1
        simp [lexAt, hsp, hsingle, hpair, hv]
  rename_i hpair
  split at h
  · -- after `/`: only the slash itself is punctuation
    rename_i hslash
    have hu : u = 0x2F := by simpa using hslash
    subst hu
    rcases lexSlash_token h with rfl | ⟨rfl, rfl, rfl⟩
    · cases hk
    refine ⟨rfl, 0x2F, [], by simp, fun more hmore => ?_⟩
    cases more with
    | nil => rfl
    | cons v more =>
      obtain ⟨-, h2F, h2A⟩ := (headIn_cons).1 hmore
      simp [lexAt, lexSlash, hsp, hsingle, hpair, h2F, h2A]
  split at h
  · unfold lexString at h
    rw [token_kind_of_ite h] at hk
    cases hk
  split at h
  · unfold lexNumber at h
    rw [token_kind_of_ite h] at hk
    cases hk
  split at h
  · rw [lexName_not_punctuation h] at hk
    cases hk
  · unfold lexUnexpected at h
    split at h
    · split at h <;> cases h
    · cases h

theorem lexAt_equalSign (rest : List UInt16) :
    lexAt 0x3D rest = match rest with
      | 0x3D :: _ => (.token .equalEqual none, 1)
      | _ => (.token .equal none, 0) := rfl

/-- A step that reads `-` or `!` starts with a unit that may follow an operator. -/
theorem opFollows_of_lexAt {u : UInt16} {rest : List UInt16} {k : TokenKind}
    {lit : Option Literal} {n : Nat} (h : lexAt u rest = (.token k lit, n))
    (hk : k = .minus ∨ k = .bang) : opFollows u := by
  refine ⟨?_, ?_, ?_⟩ <;> rintro rfl
  · -- `=` reads as `=` or `==`
    rw [lexAt_equalSign] at h
    split at h <;> cases h <;> simp at hk
  · -- `/` reads as a comment or the slash
    have hstep : lexAt 0x2F rest = lexSlash rest := rfl
    rw [hstep] at h
    rcases lexSlash_token h with rfl | ⟨rfl, -, -⟩ <;> simp at hk
  · -- `*` is a mark of its own
    have hstep : lexAt 0x2A rest = (.token .star none, 0) := rfl
    rw [hstep] at h
    cases h
    simp at hk

/-- A token that the scanner's step reads as punctuation, read again from its lexeme. -/
def Rereads {π : Type} (t : Token π) : Prop :=
  isPunctuation t.kind = true → t.literal = none ∧ LexesAs opFollows t.kind none t.lexeme.units

/-- Every punctuation token of a scan reads back from its lexeme alone. -/
theorem scanFrom_rereads (p : Position) (us : List UInt16) :
    ∀ t ∈ (scanFrom p us).tokens, Rereads t := by
  induction p, us using scanFrom.induct with
  | case1 p =>
    rw [scanFrom_nil]
    intro t ht hk
    rw [List.mem_singleton.1 ht] at hk
    cases hk
  | case2 p u rest n _ _ h ih =>
    rw [scanFrom_blank h]
    exact ih
  | case3 p u rest n _ _ k lit h ih =>
    rw [scanFrom_token h]
    intro t ht
    rcases List.mem_cons.1 ht with rfl | ht
    · exact lexesAs_of_lexAt h
    · exact ih t ht
  | case4 p u rest n _ _ kind text h ih =>
    rw [scanFrom_error h]
    exact ih

/-! ## Numerals and words -/

/-- A unit that starts a number or a word is no blank, no punctuation, no `/` and no `"`. -/
theorem unmarked_of_starts {u : UInt16} (h : isDigit u = true ∨ isNameStart u = true) :
    isSpace u = false ∧ singleKind? u = none ∧ pairKinds? u = none ∧ u ≠ 0x2F ∧ u ≠ 0x22 := by
  have hu : (48 ≤ u.toNat ∧ u.toNat ≤ 57) ∨ u.toNat = 95 ∨ (97 ≤ u.toNat ∧ u.toNat ≤ 122) ∨
      (65 ≤ u.toNat ∧ u.toNat ≤ 90) := by
    simp only [isDigit, isNameStart, isAlpha, Bool.and_eq_true, Bool.or_eq_true, decide_eq_true_eq,
      UInt16.le_iff_toNat_le, beq_iff_eq, ← UInt16.toNat_inj] at h
    simp at h
    omega
  refine ⟨?_, ?_, ?_, ?_⟩
  · simp only [isSpace, Bool.or_eq_false_iff, beq_eq_false_iff_ne, ne_eq, ← UInt16.toNat_inj]
    simp
    omega
  · unfold singleKind?
    split <;> simp_all
  · unfold pairKinds?
    split <;> simp_all
  · simp only [ne_eq, ← UInt16.toNat_inj]
    simp
    omega

theorem opFollows_of_isDigit {u : UInt16} (h : isDigit u = true) : opFollows u := by
  simp only [isDigit, Bool.and_eq_true, decide_eq_true_eq, UInt16.le_iff_toNat_le] at h
  simp only [opFollows, ne_eq, ← UInt16.toNat_inj]
  simp at h ⊢
  omega

/-- A digit starts a number. -/
theorem lexAt_of_isDigit {u : UInt16} (rest : List UInt16) (h : isDigit u = true) :
    lexAt u rest = lexNumber u rest := by
  obtain ⟨hsp, hsingle, hpair, h2F, h22⟩ := unmarked_of_starts (.inl h)
  simp [lexAt, hsp, hsingle, hpair, h2F, h22, h]

/-- A letter or `_` starts a word. -/
theorem lexAt_of_isNameStart {u : UInt16} (rest : List UInt16) (h : isNameStart u = true) :
    lexAt u rest = lexName u rest := by
  obtain ⟨hsp, hsingle, hpair, h2F, h22⟩ := unmarked_of_starts (.inr h)
  have hdigit : isDigit u = false := by
    simp only [isDigit, isNameStart, isAlpha, Bool.and_eq_true, Bool.or_eq_true, decide_eq_true_eq,
      UInt16.le_iff_toNat_le, beq_iff_eq, ← UInt16.toNat_inj, Bool.and_eq_false_imp] at h ⊢
    simp at h ⊢
    omega
  simp [lexAt, hsp, hsingle, hpair, h2F, h22, hdigit, h]

/-- What may follow a number without joining it: no digit and no point. -/
def numFollows (v : UInt16) : Prop := isDigit v = false ∧ v ≠ 0x2E

/-- What may follow a word without joining it: no letter, digit or `_`. -/
def nameFollows (v : UInt16) : Prop := isNamePart v = false

instance : DecidablePred numFollows := fun _ => inferInstanceAs (Decidable (_ ∧ _))

instance : DecidablePred nameFollows := fun _ => inferInstanceAs (Decidable (_ = _))

/-! A space joins no lexeme. -/

theorem opFollows_space : ∀ v : UInt16, v = 0x20 → opFollows v := by
  rintro v rfl
  decide

theorem numFollows_space : ∀ v : UInt16, v = 0x20 → numFollows v := by
  rintro v rfl
  decide

theorem nameFollows_space : ∀ v : UInt16, v = 0x20 → nameFollows v := by
  rintro v rfl
  decide

/-- Digits, then optionally a point and one or more digits: a number as the scanner reads it. -/
def IsNumeral (w : List UInt16) : Prop :=
  ∃ whole fraction, w = whole ++ fraction ∧ whole ≠ [] ∧ (∀ d ∈ whole, isDigit d = true) ∧
    (fraction = [] ∨ ∃ ds, fraction = 0x2E :: ds ∧ ds ≠ [] ∧ ∀ d ∈ ds, isDigit d = true)

theorem takeWhile_eq_nil_of_headIn {p : UInt16 → Bool} {more : List UInt16}
    (h : HeadIn (fun v => p v = false) more) : more.takeWhile p = [] := by
  cases more with
  | nil => rfl
  | cons v more => simp [(headIn_cons).1 h]

/-- A numeral of finite value is one number token carrying that value. -/
theorem IsNumeral.lexesAs {w : List UInt16} (h : IsNumeral w)
    (hfin : (numberValue w).isFinite = true) :
    LexesAs numFollows .number (some (.number (numberValue w))) w := by
  obtain ⟨whole, fraction, rfl, hne, hdigits, hfraction⟩ := h
  obtain ⟨u, ws, rfl⟩ := List.exists_cons_of_ne_nil hne
  have hu : isDigit u = true := hdigits u List.mem_cons_self
  have hws : ∀ d ∈ ws, isDigit d = true := fun d hd => hdigits d (List.mem_cons_of_mem u hd)
  refine ⟨u, ws ++ fraction, rfl, fun more hmore => ?_⟩
  have hstop : more.takeWhile isDigit = [] :=
    takeWhile_eq_nil_of_headIn fun v hv => ((hmore v hv).1)
  have hwhole : (ws ++ (fraction ++ more)).takeWhile isDigit = ws := by
    rw [List.takeWhile_append_of_pos hws]
    rcases hfraction with rfl | ⟨ds, rfl, -, -⟩
    · simp [hstop]
    · simp [isDigit]
  rw [lexAt_of_isDigit _ hu, List.append_assoc]
  unfold lexNumber
  simp only [hwhole, List.drop_left]
  rcases hfraction with rfl | ⟨ds, rfl, hds, hdigits'⟩
  · -- no fraction: no point follows the digits
    cases more with
    | nil => simpa using hfin
    | cons v more =>
      have hv : v ≠ 0x2E := ((headIn_cons).1 hmore).2
      split
      · rename_i heq
        simp only [List.nil_append, List.cons.injEq] at heq
        exact absurd heq.1 hv
      · simpa using hfin
  · obtain ⟨d, ds', rfl⟩ := List.exists_cons_of_ne_nil hds
    have hd : isDigit d = true := hdigits' d List.mem_cons_self
    have hfrac : (ds' ++ more).takeWhile isDigit = ds' := by
      rw [List.takeWhile_append_of_pos fun x hx => hdigits' x (List.mem_cons_of_mem d hx), hstop,
        List.append_nil]
    have htake : (ws ++ 0x2E :: d :: (ds' ++ more)).take (ws.length + (ds'.length + 1 + 1)) =
        ws ++ 0x2E :: d :: ds' := by
      rw [show ws ++ 0x2E :: d :: (ds' ++ more) = (ws ++ 0x2E :: d :: ds') ++ more by simp,
        List.take_left' (by simp)]
    simp [hd, hfrac, htake]
    simpa using hfin

/-- A word is one token of the kind its spelling names, carrying that kind's literal. -/
theorem lexesAs_keyword {u : UInt16} {w : List UInt16} {k : TokenKind}
    (hu : isNameStart u = true) (hw : ∀ d ∈ w, isNamePart d = true)
    (hk : TokenKind.keyword? ⟨u :: w⟩ = some k) :
    LexesAs nameFollows k k.keywordLiteral (u :: w) := by
  refine ⟨u, w, rfl, fun more hmore => ?_⟩
  have hstop : more.takeWhile isNamePart = [] := takeWhile_eq_nil_of_headIn hmore
  have hword : (w ++ more).takeWhile isNamePart = w := by
    rw [List.takeWhile_append_of_pos hw, hstop, List.append_nil]
  rw [lexAt_of_isNameStart _ hu]
  simp [lexName, hword, hk]

end ExprFront.Scan
