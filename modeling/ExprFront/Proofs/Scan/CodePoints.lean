import ExprFront.Proofs.Scan.Delimited
/-!
# The scanner keeps surrogate pairs whole

A code point above U+FFFF takes two units of a text: a high surrogate, then a low one. The
scanner never cuts between them. Every step ends after a unit that is not a high surrogate,
before one that is not a low surrogate, or at the end of the text (`lexAt_splitsPair`): the
units of a token, a blank or a number are all below the surrogates, a string and a block
comment end on their closing delimiter, a line comment before a line feed, and an error that
runs to the end at the end. So no reading, whether it finds a token, an error or a blank, begins
or ends inside a pair, and nor does a token.

Only the routine for a unit that starts nothing reads surrogates at all: it takes a high
surrogate with the low one after it, and any other unit by itself (`lexAt_unexpected`).

## Main definitions

* `Text.splitsPair`: an offset between the two halves of a pair.
* `Scan.startsNothing`: the units that start no token and no blank.

Main statement (`scan_code_points`).
-/

namespace ExprFront

/-- Offset `o` of a text falls between the two halves of a surrogate pair. -/
def Text.splitsPair (s : Text) : Nat → Bool
  | 0 => false
  | o + 1 => (s.units[o]?.any Text.isHighSurrogate) && (s.units[o + 1]?.any Text.isLowSurrogate)

namespace Scan

/-- A unit with which no token and no blank starts: the scanner reports it as unexpected. -/
def startsNothing (u : UInt16) : Bool :=
  !isSpace u && (singleKind? u).isNone && (pairKinds? u).isNone && u != 0x2F && u != 0x22 &&
    !isDigit u && !isNameStart u

/-! ## Units below the surrogates -/

section Units

variable {u : UInt16}

theorem isHighSurrogate_of_toNat_lt (h : u.toNat < 0xD800) : Text.isHighSurrogate u = false := by
  simp only [Text.isHighSurrogate, Bool.and_eq_false_iff, decide_eq_false_iff_not,
    UInt16.le_iff_toNat_le, UInt16.toNat_ofNat]
  omega

theorem isHighSurrogate_of_isLowSurrogate (h : Text.isLowSurrogate u = true) :
    Text.isHighSurrogate u = false := by
  simp only [Text.isLowSurrogate, Text.isHighSurrogate, Bool.and_eq_true, decide_eq_true_eq,
    Bool.and_eq_false_iff, decide_eq_false_iff_not, UInt16.le_iff_toNat_le,
    UInt16.toNat_ofNat] at h ⊢
  omega

theorem isHighSurrogate_of_isSpace (h : isSpace u = true) : Text.isHighSurrogate u = false := by
  simp only [isSpace, Bool.or_eq_true, beq_iff_eq] at h
  rcases h with ((rfl | rfl) | rfl) | rfl <;> decide

theorem isHighSurrogate_of_isDigit (h : isDigit u = true) : Text.isHighSurrogate u = false := by
  apply isHighSurrogate_of_toNat_lt
  simp only [isDigit, Bool.and_eq_true, decide_eq_true_eq, UInt16.le_iff_toNat_le,
    UInt16.toNat_ofNat] at h
  omega

theorem isHighSurrogate_of_isNamePart (h : isNamePart u = true) :
    Text.isHighSurrogate u = false := by
  apply isHighSurrogate_of_toNat_lt
  simp only [isNamePart, isNameStart, isAlpha, isDigit, Bool.or_eq_true, Bool.and_eq_true,
    beq_iff_eq, decide_eq_true_eq, UInt16.le_iff_toNat_le, UInt16.toNat_ofNat] at h
  rcases h with (rfl | h | h) | h
  · decide
  all_goals omega

theorem isHighSurrogate_of_singleKind? {k : TokenKind} (h : singleKind? u = some k) :
    Text.isHighSurrogate u = false := by
  unfold singleKind? at h
  split at h <;> first | decide | cases h

theorem isHighSurrogate_of_pairKinds? {a b : TokenKind} (h : pairKinds? u = some (a, b)) :
    Text.isHighSurrogate u = false := by
  unfold pairKinds? at h
  split at h <;> first | decide | cases h

theorem IsNumeral.isHighSurrogate {w : List UInt16} (h : IsNumeral w) :
    ∀ x ∈ w, Text.isHighSurrogate x = false := by
  obtain ⟨whole, fraction, rfl, -, hwhole, hfraction⟩ := h
  intro x hx
  rcases List.mem_append.1 hx with hx | hx
  · exact isHighSurrogate_of_isDigit (hwhole x hx)
  rcases hfraction with rfl | ⟨ds, rfl, -, hds⟩
  · cases hx
  rcases List.mem_cons.1 hx with rfl | hx
  · decide
  · exact isHighSurrogate_of_isDigit (hds x hx)

theorem IsWord.isHighSurrogate {w : List UInt16} (h : IsWord w) :
    ∀ x ∈ w, Text.isHighSurrogate x = false := by
  obtain ⟨v, ws, rfl, hv, hws⟩ := h
  intro x hx
  rcases List.mem_cons.1 hx with rfl | hx
  · exact isHighSurrogate_of_isNamePart (by simp [isNamePart, hv])
  · exact isHighSurrogate_of_isNamePart (hws x hx)

end Units

/-! ## Where a step ends -/

section Cuts

variable {us : List UInt16} {n : Nat}

/-- A cut after a unit that is not a high surrogate splits no pair. -/
theorem splitsPair_of_getElem? {x : UInt16} (hx : us[n]? = some x)
    (hhigh : Text.isHighSurrogate x = false) : Text.splitsPair ⟨us⟩ (n + 1) = false := by
  simp [Text.splitsPair, hx, hhigh]

/-- Nor does a cut before a unit that is not a low surrogate, or at the end. -/
theorem splitsPair_of_next (h : ∀ y ∈ us[n + 1]?, Text.isLowSurrogate y = false) :
    Text.splitsPair ⟨us⟩ (n + 1) = false := by
  cases hy : us[n + 1]? with
  | none => simp [Text.splitsPair, hy]
  | some y => simp [Text.splitsPair, hy, h y hy]

/-- A step that takes only units below the surrogates ends on a code point. -/
theorem splitsPair_of_forall {u : UInt16} {rest : List UInt16} (hn : n ≤ rest.length)
    (h : ∀ x ∈ u :: rest.take n, Text.isHighSurrogate x = false) :
    Text.splitsPair ⟨u :: rest⟩ (n + 1) = false := by
  have hlt : n < (u :: rest).length := by
    rw [List.length_cons]
    omega
  -- the unit before the cut is the last one the step took
  have hlast : (u :: rest.take n)[n]? = some (u :: rest)[n] := by
    rw [← List.take_succ_cons, List.getElem?_take_of_lt (Nat.lt_succ_self n),
      List.getElem?_eq_getElem hlt]
  exact splitsPair_of_getElem? (List.getElem?_eq_getElem hlt) (h _ (List.mem_of_getElem? hlast))

/-- A step that takes every unit ends at the end of the text. -/
theorem splitsPair_of_all {u : UInt16} {rest : List UInt16} (hn : n = rest.length) :
    Text.splitsPair ⟨u :: rest⟩ (n + 1) = false :=
  splitsPair_of_next (by simp [hn])

/-- A cut `k + 1` units into the text from offset `o` is one at `o + k + 1` in the text. -/
theorem splitsPair_drop (s : Text) (o k : Nat) :
    Text.splitsPair ⟨s.units.drop o⟩ (k + 1) = s.splitsPair (o + k + 1) := by
  simp [Text.splitsPair, List.getElem?_drop, Nat.add_assoc]

theorem splitsPair_zero (s : Text) : s.splitsPair 0 = false := rfl

theorem splitsPair_length (s : Text) : s.splitsPair s.length = false := by
  cases h : s.length with
  | zero => rfl
  | succ o =>
    have hnone : s.units[o + 1]? = none := by
      rw [List.getElem?_eq_none_iff]
      exact Nat.le_of_eq h
    simp [Text.splitsPair, hnone]

end Cuts

/-- A block comment that closes ends on the `/` of its `*/`. -/
theorem closeBlock_last {d taken k : Nat} {body : List UInt16}
    (h : closeBlock d taken body = some k) :
    taken + 2 ≤ k ∧ body[k - taken - 1]? = some 0x2F := by
  fun_induction closeBlock d taken body with
  | case1 => cases h
  | case3 depth taken rest hd =>
    cases h
    exact ⟨Nat.le_refl _, by simp⟩
  | case2 depth taken rest ih | case4 depth taken rest _ ih =>
    -- past a delimiter: the `/` is two units further into the body
    obtain ⟨hle, hlast⟩ := ih h
    obtain ⟨m, hm⟩ : ∃ m, k - taken - 1 = m + 2 := ⟨k - taken - 3, by omega⟩
    refine ⟨by omega, ?_⟩
    rw [hm, List.getElem?_cons_succ, List.getElem?_cons_succ, ← hlast]
    congr 1
    omega
  | case5 depth taken v rest _ _ ih =>
    obtain ⟨hle, hlast⟩ := ih h
    obtain ⟨m, hm⟩ : ∃ m, k - taken - 1 = m + 1 := ⟨k - taken - 2, by omega⟩
    refine ⟨by omega, ?_⟩
    rw [hm, List.getElem?_cons_succ, ← hlast]
    congr 1
    omega

/-! ## Every step ends on a code point -/

section Steps

variable {u : UInt16} {rest : List UInt16} {item : Item} {n : Nat}

/-- A step whose units end on a unit that is not a high surrogate ends on a code point. -/
theorem splitsPair_of_take {w : List UInt16} {x : UInt16} (hn : n ≤ rest.length)
    (h : rest.take n = w ++ [x]) (hx : Text.isHighSurrogate x = false) :
    Text.splitsPair ⟨u :: rest⟩ (n + 1) = false := by
  have hlen := congrArg List.length h
  simp only [List.length_take, List.length_append, List.length_singleton] at hlen
  obtain rfl : n = w.length + 1 := by omega
  apply splitsPair_of_getElem? _ hx
  rw [List.getElem?_cons_succ, ← List.getElem?_take_of_lt (Nat.lt_succ_self _), h]
  simp

/-- After a `/`: the slash alone, a line comment before a line feed or the end, a block comment
on the `/` of its `*/`, or an error that takes the rest. -/
theorem lexSlash_splitsPair (h : lexSlash rest = (item, n)) :
    Text.splitsPair ⟨0x2F :: rest⟩ (n + 1) = false := by
  rcases rest with _ | ⟨v, body⟩
  · cases h
    exact splitsPair_of_getElem? rfl (by decide)
  by_cases h2F : v = 0x2F
  · subst h2F
    have hstep : lexSlash (0x2F :: body) =
        (comment (Text.trimStart ⟨body.take (body.takeWhile (· != 0x0A)).length⟩),
          (body.takeWhile (· != 0x0A)).length + 1) := rfl
    obtain ⟨m, hm, -, hnext, -⟩ := lexSlash_lineComment hstep
    rw [hstep] at h
    obtain ⟨-, rfl⟩ := Prod.mk.inj h
    -- the unit after a line comment is the line feed that stopped it, if any
    refine splitsPair_of_next fun y hy => ?_
    rw [hm, List.getElem?_cons_succ, List.getElem?_cons_succ, ← List.head?_drop] at hy
    rcases hnext with hnone | hnl
    · rw [hnone] at hy
      cases hy
    · rw [hnl] at hy
      cases hy
      decide
  by_cases h2A : v = 0x2A
  · subst h2A
    cases hk : closeBlock 1 0 body with
    | none =>
      rw [lexSlash_open_none hk] at h
      obtain ⟨-, rfl⟩ := Prod.mk.inj h
      exact splitsPair_of_all rfl
    | some k =>
      rw [lexSlash_open_some hk] at h
      obtain ⟨-, rfl⟩ := Prod.mk.inj h
      obtain ⟨hk2, hlast⟩ := closeBlock_last hk
      obtain ⟨m, rfl⟩ : ∃ m, k = m + 2 := ⟨k - 2, by omega⟩
      refine splitsPair_of_getElem? (x := 0x2F) ?_ (by decide)
      rw [List.getElem?_cons_succ, List.getElem?_cons_succ, ← hlast]
      rfl
  have hstep : lexSlash (v :: body) = (.token .slash none, 0) := by
    simp [lexSlash, h2F, h2A]
  rw [hstep] at h
  obtain ⟨-, rfl⟩ := Prod.mk.inj h
  exact splitsPair_of_getElem? rfl (by decide)

/-- After a `"`: a string on its closing quote, or an error that takes the rest. -/
theorem lexString_splitsPair (h : lexString rest = (item, n)) :
    Text.splitsPair ⟨0x22 :: rest⟩ (n + 1) = false := by
  have hn : n ≤ rest.length := by
    have hlexed := lexString_lexed rest
    rw [h] at hlexed
    exact hlexed.1
  cases item with
  | blank =>
    unfold lexString at h
    dsimp only at h
    split at h <;> cases h
  | token k lit =>
    obtain ⟨-, x, hx, -, -⟩ := lexString_token h
    exact splitsPair_of_take hn hx (by decide)
  | error kind text =>
    exact splitsPair_of_all (lexString_error h).2.2.1

theorem lexNumber_splitsPair (hu : isDigit u = true) (h : lexNumber u rest = (item, n)) :
    Text.splitsPair ⟨u :: rest⟩ (n + 1) = false := by
  have hn : (lexNumber u rest).2 = n := by rw [h]
  have hlexed := lexNumber_lexed u rest
  rw [h] at hlexed
  have hnum := (lexNumber_longest hu rest).1
  rw [hn] at hnum
  exact splitsPair_of_forall hlexed.1 hnum.isHighSurrogate

theorem lexName_splitsPair (hu : isNameStart u = true) (h : lexName u rest = (item, n)) :
    Text.splitsPair ⟨u :: rest⟩ (n + 1) = false := by
  have hn : (lexName u rest).2 = n := by rw [h]
  have hlexed := lexName_lexed u rest
  rw [h] at hlexed
  have hword := (lexName_longest hu rest).1
  rw [hn] at hword
  exact splitsPair_of_forall hlexed.1 hword.isHighSurrogate

/-- A unit that starts nothing: a whole pair, or one unit that is not the high half of one. -/
theorem lexUnexpected_splitsPair (h : lexUnexpected u rest = (item, n)) :
    Text.splitsPair ⟨u :: rest⟩ (n + 1) = false := by
  unfold lexUnexpected at h
  split at h
  · rename_i v more
    split at h
    · rename_i hpair
      obtain ⟨-, rfl⟩ := Prod.mk.inj h
      simp only [Bool.and_eq_true] at hpair
      exact splitsPair_of_getElem? rfl (isHighSurrogate_of_isLowSurrogate hpair.2)
    · rename_i hpair
      obtain ⟨-, rfl⟩ := Prod.mk.inj h
      simpa [Text.splitsPair] using hpair
  · obtain ⟨-, rfl⟩ := Prod.mk.inj h
    exact splitsPair_of_all rfl

/-- Every step of the scanner ends on a code point. -/
theorem lexAt_splitsPair (h : lexAt u rest = (item, n)) :
    Text.splitsPair ⟨u :: rest⟩ (n + 1) = false := by
  unfold lexAt at h
  split at h
  · rename_i hspace
    obtain ⟨-, rfl⟩ := Prod.mk.inj h
    exact splitsPair_of_getElem? rfl (isHighSurrogate_of_isSpace hspace)
  split at h
  · rename_i k hk
    obtain ⟨-, rfl⟩ := Prod.mk.inj h
    exact splitsPair_of_getElem? rfl (isHighSurrogate_of_singleKind? hk)
  split at h
  · rename_i alone withEqual hpair
    split at h
    · obtain ⟨-, rfl⟩ := Prod.mk.inj h
      exact splitsPair_of_getElem? rfl (by decide)
    · obtain ⟨-, rfl⟩ := Prod.mk.inj h
      exact splitsPair_of_getElem? rfl (isHighSurrogate_of_pairKinds? hpair)
  split at h
  · rename_i hslash
    obtain rfl : u = 0x2F := by simpa using hslash
    exact lexSlash_splitsPair h
  split at h
  · rename_i hquote
    obtain rfl : u = 0x22 := by simpa using hquote
    exact lexString_splitsPair h
  split at h
  · rename_i hdigit
    exact lexNumber_splitsPair hdigit h
  split at h
  · rename_i hname
    exact lexName_splitsPair hname h
  · exact lexUnexpected_splitsPair h

/-- A step that reports an unexpected character starts with a unit that starts nothing, and is
the step that reads one. -/
theorem lexAt_unexpected {text : Text} (h : lexAt u rest = (.error .unexpectedCharacter text, n)) :
    startsNothing u = true ∧ lexUnexpected u rest = (.error .unexpectedCharacter text, n) := by
  unfold lexAt at h
  split at h
  · cases h
  split at h
  · cases h
  split at h
  · split at h <;> cases h
  split at h
  · obtain ⟨-, -, -, hk, -⟩ := lexSlash_error h
    cases hk
  split at h
  · cases (lexString_error h).1
  split at h
  · rw [lexNumber_eq] at h
    cases (numberItem_error h).2.1
  split at h
  · unfold lexName at h
    dsimp only at h
    split at h <;> cases h
  rename_i hspace _ hsingle _ hpair hslash hquote hdigit hname
  refine ⟨?_, h⟩
  simp only [beq_iff_eq] at hslash hquote
  simp [startsNothing, hspace, hsingle, hpair, hslash, hquote, hdigit, hname]

end Steps

/-! ## The readings of a scan -/

section Scan

variable {s : Text} {r : Reading}

/-- A reading of a text stops on a code point. -/
theorem Reading.ReadsIn.stop_splitsPair (h : r.ReadsIn s) :
    s.splitsPair r.stop.offset = false := by
  obtain ⟨-, u, rest, n, hdrop, hlex, hunits⟩ := h
  have hn := (lexed_of_lexAt_eq hlex).1
  have hstop : r.stop.offset = r.start.offset + n + 1 := by
    rw [Reading.stop_offset, hunits, List.length_cons, List.length_take, Nat.min_eq_left hn,
      Nat.add_assoc]
  rw [hstop, ← splitsPair_drop, hdrop]
  exact lexAt_splitsPair hlex

/-- Every reading of a scan begins and ends on a code point. -/
theorem splitsPair_of_mem_readings (hr : r ∈ readings s) :
    s.splitsPair r.start.offset = false ∧ s.splitsPair r.stop.offset = false := by
  refine ⟨?_, (readsIn_of_mem_readings hr).stop_splitsPair⟩
  -- a reading begins at the start of the text or where another one stopped
  rcases start_eq_of_mem_walk hr with hstart | ⟨q, hq, hqr⟩
  · rw [hstart]
    exact splitsPair_zero s
  · rw [← hqr]
    exact (readsIn_of_mem_readings hq).stop_splitsPair

/-- Every token of a scan begins and ends on a code point. -/
theorem splitsPair_of_mem_tokens {t : Token Nat} (ht : t ∈ (scan s).tokens) :
    s.splitsPair t.start = false ∧ s.splitsPair t.stop = false := by
  rw [scan_eq_readings] at ht
  rcases List.mem_append.1 ht with ht | ht
  · obtain ⟨r, hr, hrt⟩ := List.mem_filterMap.1 ht
    obtain ⟨-, -, hstart, hstop, -, -⟩ := Reading.token?_eq_some hrt
    rw [hstart, hstop]
    exact splitsPair_of_mem_readings hr
  · -- the end token stands at the end of the text
    have hend : (Position.initial.after s.units).offset = s.length := by
      rw [Position.offset_after]
      simp [Position.initial, Text.length]
    rw [List.mem_singleton.1 ht]
    show s.splitsPair (Position.initial.after s.units).offset = false ∧
      s.splitsPair (Position.initial.after s.units).offset = false
    rw [hend]
    exact ⟨splitsPair_length s, splitsPair_length s⟩

/-- A reading that reports an unexpected character took one code point: a high surrogate with
the low one after it, or one unit that is not the high half of a pair. Its first unit starts
nothing, and its lexeme is what it took. -/
theorem unexpected_of_mem_readings {text : Text} (hr : r ∈ readings s)
    (hitem : r.item = .error .unexpectedCharacter text) :
    text = ⟨r.units⟩ ∧ ∃ u, startsNothing u = true ∧
      ((∃ lo, r.units = [u, lo] ∧ Text.isHighSurrogate u = true ∧
          Text.isLowSurrogate lo = true) ∨
        (r.units = [u] ∧ s.splitsPair (r.start.offset + 1) = false)) := by
  obtain ⟨-, u, rest, n, hdrop, hlex, hunits⟩ := readsIn_of_mem_readings hr
  rw [hitem] at hlex
  obtain ⟨hstarts, hunexpected⟩ := lexAt_unexpected hlex
  rcases (lexUnexpected_error hunexpected).2 with ⟨v, more, rfl, hhigh, hlow, rfl, rfl⟩ |
    ⟨rfl, rfl, -⟩
  · exact ⟨by rw [hunits]; rfl, u, hstarts, .inl ⟨v, by rw [hunits]; rfl, hhigh, hlow⟩⟩
  · -- a unit by itself: the cut after it splits no pair
    have hcut := lexAt_splitsPair hlex
    rw [← hdrop, splitsPair_drop, Nat.add_zero] at hcut
    exact ⟨by rw [hunits]; rfl, u, hstarts, .inr ⟨by rw [hunits]; rfl, hcut⟩⟩

end Scan

/-- The scanner respects code points: no reading, whether of a token, an error or a blank, and
no token begins or ends between the two halves of a surrogate pair. Every error is what a
reading of the text found; an unexpected character is one code point, a high surrogate with its
low one or a single unit that is not the high half of a pair, whose first unit starts no token,
and its message quotes it. -/
theorem scan_code_points (s : Text) :
    (∀ r ∈ readings s, s.splitsPair r.start.offset = false ∧
      s.splitsPair r.stop.offset = false) ∧
    (∀ t ∈ (scan s).tokens, s.splitsPair t.start = false ∧ s.splitsPair t.stop = false) ∧
    ∀ e ∈ (scan s).errors, ∃ r ∈ readings s, r.error? = some e ∧
      r.units <+: s.units.drop r.start.offset ∧
      (e.kind = .unexpectedCharacter →
        e.lexeme = ⟨r.units⟩ ∧
          (∃ u, startsNothing u = true ∧
            ((∃ lo, r.units = [u, lo] ∧ Text.isHighSurrogate u = true ∧
                Text.isLowSurrogate lo = true) ∨
              (r.units = [u] ∧ s.splitsPair (r.start.offset + 1) = false))) ∧
          e.message = Text.ofString "Unexpected character '" ++ e.lexeme ++
            Text.ofString "'.") := by
  refine ⟨fun r hr => splitsPair_of_mem_readings hr, fun t ht => splitsPair_of_mem_tokens ht,
    fun e he => ?_⟩
  obtain ⟨r, hr, hre⟩ := exists_reading_of_mem_errors he
  obtain ⟨hitem, -, -⟩ := Reading.error?_eq_some hre
  refine ⟨r, hr, hre, ?_, fun hk => ?_⟩
  · obtain ⟨-, u, rest, n, hdrop, -, hunits⟩ := readsIn_of_mem_readings hr
    rw [hdrop, hunits]
    exact List.cons_prefix_cons.2 ⟨rfl, List.take_prefix n rest⟩
  · rw [hk] at hitem
    obtain ⟨hlexeme, hcode⟩ := unexpected_of_mem_readings hr hitem
    refine ⟨hlexeme, hcode, ?_⟩
    rw [ScanError.message, hk]

end Scan

end ExprFront
