import ExprFront.Proofs.Scan.Positions
/-!
# The readings of a run

A run of the scanner is a list of readings. At each it stands at a position, finds the item that
starts with the next unit, and takes that unit and as many after it as the item needs
(`Scan.walk`). The tokens of the run are those its readings found, then the end token where it
stops, and its errors those its readings found (`scanFrom_eq_walk`). So what holds of every
reading holds of every token and every error of a scan.

A reading of a text stands where the text has the unit it begins with, at the line and column
of that offset, and finds there what `lexAt` finds (`Reading.ReadsIn`); the readings after it
are the run from where it stopped (`exists_of_mem_walk`).

## Main definitions

* `Scan.Reading`, `Scan.walk`, `Scan.readings`.
* `Scan.Reading.ReadsIn`: a reading of a given text.
-/

namespace ExprFront.Scan

/-- One reading of the scanner: where it began, what it found, and the units it took. -/
structure Reading where
  start : Position
  item : Item
  units : List UInt16

namespace Reading

/-- Where the scanner stands after the reading. -/
def stop (r : Reading) : Position := r.start.after r.units

/-- The token the reading records, when it found one. -/
def token? (r : Reading) : Option (Token Nat) :=
  match r.item with
  | .token kind literal =>
    some
      { kind := kind, lexeme := ⟨r.units⟩, literal := literal, line := r.start.line,
        column := r.start.column, start := r.start.offset, stop := r.stop.offset }
  | _ => none

/-- The error the reading records, when it found one. -/
def error? (r : Reading) : Option ScanError :=
  match r.item with
  | .error kind text => some ⟨kind, text, r.start.line, r.start.column⟩
  | _ => none

theorem token?_eq_some {r : Reading} {t : Token Nat} (h : r.token? = some t) :
    r.item = .token t.kind t.literal ∧ t.lexeme = ⟨r.units⟩ ∧ t.start = r.start.offset ∧
      t.stop = r.stop.offset ∧ t.line = r.start.line ∧ t.column = r.start.column := by
  unfold token? at h
  split at h
  · cases h
    exact ⟨by assumption, rfl, rfl, rfl, rfl, rfl⟩
  · cases h

theorem token?_of_item {r : Reading} {k : TokenKind} {lit : Option Literal}
    (h : r.item = .token k lit) :
    r.token? =
      some
        { kind := k, lexeme := ⟨r.units⟩, literal := lit, line := r.start.line,
          column := r.start.column, start := r.start.offset, stop := r.stop.offset } := by
  rw [token?, h]

theorem error?_eq_some {r : Reading} {e : ScanError} (h : r.error? = some e) :
    r.item = .error e.kind e.lexeme ∧ e.line = r.start.line ∧ e.column = r.start.column := by
  unfold error? at h
  split at h
  · cases h
    exact ⟨by assumption, rfl, rfl⟩
  · cases h

theorem stop_offset (r : Reading) : r.stop.offset = r.start.offset + r.units.length :=
  Position.offset_after _ _

end Reading

/-- The readings of a run from `p` over `us`, in order. -/
def walk (p : Position) : List UInt16 → List Reading
  | [] => []
  | u :: rest =>
    let (item, n) := lexAt u rest
    ⟨p, item, u :: rest.take n⟩ :: walk (p.after (u :: rest.take n)) (rest.drop n)
termination_by us => us.length
decreasing_by simp only [List.length_drop, List.length_cons]; omega

/-- The readings of a scan of a whole text. -/
def readings (s : Text) : List Reading := walk Position.initial s.units

theorem walk_nil (p : Position) : walk p [] = [] := by
  rw [walk]

theorem walk_cons {p : Position} {u : UInt16} {rest : List UInt16} {item : Item} {n : Nat}
    (h : lexAt u rest = (item, n)) :
    walk p (u :: rest) =
      ⟨p, item, u :: rest.take n⟩ :: walk (p.after (u :: rest.take n)) (rest.drop n) := by
  rw [walk.eq_2, h]

/-- A run records what its readings found, in order, then the end token where it stops. -/
theorem scanFrom_eq_walk (p : Position) (us : List UInt16) :
    scanFrom p us = ⟨(walk p us).filterMap Reading.token? ++ [endToken (p.after us)],
      (walk p us).filterMap Reading.error?⟩ := by
  induction p, us using scanFrom.induct with
  | case1 p =>
    rw [scanFrom_nil, walk_nil]
    rfl
  | case2 p u rest n _ _ h ih =>
    rw [scanFrom_blank h, ih, walk_cons h, Position.after_take_drop]
    rfl
  | case3 p u rest n _ _ k lit h ih =>
    rw [scanFrom_token h, ih, walk_cons h, Position.after_take_drop]
    rfl
  | case4 p u rest n _ _ kind text h ih =>
    rw [scanFrom_error h, ih, walk_cons h, Position.after_take_drop]
    rfl

/-- A reading of a run: the readings before it cover the units before it, it reads the next
unit with what follows by `lexAt`, and the readings after it are the run from where it
stopped. -/
theorem exists_of_mem_walk {p : Position} {us : List UInt16} {r : Reading}
    (h : r ∈ walk p us) :
    ∃ W u rest n, walk p us = W ++ r :: walk r.stop (rest.drop n) ∧
      us = W.flatMap Reading.units ++ u :: rest ∧ r.start = p.after (W.flatMap Reading.units) ∧
      lexAt u rest = (r.item, n) ∧ r.units = u :: rest.take n := by
  induction p, us using walk.induct with
  | case1 p =>
    rw [walk_nil] at h
    cases h
  | case2 p u rest item n hlex ih =>
    rw [walk_cons hlex] at h ⊢
    rcases List.mem_cons.1 h with rfl | h
    · exact ⟨[], u, rest, n, rfl, rfl, rfl, hlex, rfl⟩
    obtain ⟨W, v, vrest, m, hw, hus, hstart, hv, hunits⟩ := ih h
    refine ⟨⟨p, item, u :: rest.take n⟩ :: W, v, vrest, m, by rw [hw]; rfl, ?_, ?_, hv, hunits⟩
    · rw [List.flatMap_cons, List.append_assoc, ← hus, List.cons_append, List.take_append_drop]
    · rw [hstart, List.flatMap_cons, Position.after_append]

/-- The readings of a run begin no sooner than the run. -/
theorem start_le_of_mem_walk {p : Position} {us : List UInt16} {r : Reading}
    (h : r ∈ walk p us) : p.offset ≤ r.start.offset := by
  obtain ⟨W, -, -, -, -, -, hstart, -, -⟩ := exists_of_mem_walk h
  rw [hstart]
  exact Position.offset_le_after _ _

/-- No two readings of a run begin at the same offset. -/
theorem eq_of_mem_walk_of_start {p : Position} {us : List UInt16} {r r' : Reading}
    (h : r ∈ walk p us) (h' : r' ∈ walk p us) (hstart : r.start.offset = r'.start.offset) :
    r = r' := by
  induction p, us using walk.induct with
  | case1 p =>
    rw [walk_nil] at h
    cases h
  | case2 p u rest item n hlex ih =>
    rw [walk_cons hlex] at h h'
    -- the readings after the first begin after it has taken at least one unit
    have hlater : ∀ q ∈ walk (p.after (u :: rest.take n)) (rest.drop n),
        p.offset < q.start.offset := by
      intro q hq
      have hle := start_le_of_mem_walk hq
      rw [Position.offset_after] at hle
      simp only [List.length_cons] at hle
      omega
    rcases List.mem_cons.1 h with rfl | h <;> rcases List.mem_cons.1 h' with rfl | h'
    · rfl
    · exact absurd hstart (Nat.ne_of_lt (hlater r' h'))
    · exact absurd hstart.symm (Nat.ne_of_lt (hlater r h))
    · exact ih h h'

/-- Each reading of a run begins where the run does or where another of its readings
stopped. -/
theorem start_eq_of_mem_walk {p : Position} {us : List UInt16} {r : Reading}
    (h : r ∈ walk p us) : r.start = p ∨ ∃ q ∈ walk p us, q.stop = r.start := by
  induction p, us using walk.induct with
  | case1 p =>
    rw [walk_nil] at h
    cases h
  | case2 p u rest item n hlex ih =>
    rw [walk_cons hlex] at h ⊢
    rcases List.mem_cons.1 h with rfl | h
    · exact .inl rfl
    rcases ih h with hstart | ⟨q, hq, hqr⟩
    · exact .inr ⟨_, List.mem_cons_self, hstart.symm⟩
    · exact .inr ⟨q, List.mem_cons_of_mem _ hq, hqr⟩

/-- The readings before a reading of a run stop by where it begins. -/
theorem stop_le_of_walk_eq {p : Position} {us : List UInt16} {W X : List Reading}
    {r q : Reading} (h : walk p us = W ++ r :: X) (hq : q ∈ W) :
    q.stop.offset ≤ r.start.offset := by
  induction p, us using walk.induct generalizing W with
  | case1 p =>
    rw [walk_nil] at h
    cases W <;> cases h
  | case2 p u rest item n hlex ih =>
    rw [walk_cons hlex] at h
    cases W with
    | nil => cases hq
    | cons q₀ W =>
      obtain ⟨rfl, hW⟩ := List.cons.inj h
      rcases List.mem_cons.1 hq with rfl | hq
      · -- `r` is a reading of the run from where the first reading stopped
        have hr : r ∈ walk (p.after (u :: rest.take n)) (rest.drop n) := by
          rw [hW]
          exact List.mem_append_right _ List.mem_cons_self
        exact start_le_of_mem_walk hr
      · exact ih hW hq

/-! ## Readings of a text -/

/-- `r` is a reading of the text `s`: it began at the line and column its offset has, the text
has some `u :: rest` from there, and `r` found what `lexAt` finds in it and took what it
takes. -/
def Reading.ReadsIn (s : Text) (r : Reading) : Prop :=
  positionAt s r.start.offset = r.start ∧
    ∃ u rest n, s.units.drop r.start.offset = u :: rest ∧ lexAt u rest = (r.item, n) ∧
      r.units = u :: rest.take n

/-- Every reading of a run over the text from `p` on is a reading of the text. -/
theorem readsIn_of_mem_walk {s : Text} {p : Position} {us : List UInt16} {r : Reading}
    (hs : s.units.drop p.offset = us) (hp : positionAt s p.offset = p) (h : r ∈ walk p us) :
    r.ReadsIn s := by
  obtain ⟨W, u, rest, n, -, hus, hstart, hlex, hunits⟩ := exists_of_mem_walk h
  have hdrop : s.units.drop r.start.offset = u :: rest := by
    rw [hstart, Position.offset_after, ← List.drop_drop, hs, hus, List.drop_left]
  refine ⟨?_, u, rest, n, hdrop, hlex, hunits⟩
  rw [hstart]
  exact positionAt_after hs hp ⟨u :: rest, hus.symm⟩

theorem readsIn_of_mem_readings {s : Text} {r : Reading} (h : r ∈ readings s) : r.ReadsIn s :=
  readsIn_of_mem_walk List.drop_zero rfl h

namespace Reading.ReadsIn

variable {s : Text} {r : Reading}

/-- A reading stands at the line and column its offset has in the text. -/
theorem line_column (h : r.ReadsIn s) :
    r.start.line = s.lineAt r.start.offset ∧ r.start.column = s.columnAt r.start.offset :=
  positionAt_eq_mk h.1

/-- A reading begins inside the text. -/
theorem start_lt (h : r.ReadsIn s) : r.start.offset < s.length := by
  obtain ⟨-, u, rest, n, hdrop, -, -⟩ := h
  have hlen := congrArg List.length hdrop
  simp only [List.length_drop, List.length_cons] at hlen
  exact Nat.lt_of_sub_pos (by rw [Text.length, hlen]; omega)

end Reading.ReadsIn

theorem scan_eq_readings (s : Text) :
    scan s = ⟨(readings s).filterMap Reading.token? ++ [endToken (Position.initial.after s.units)],
      (readings s).filterMap Reading.error?⟩ :=
  scanFrom_eq_walk _ _

/-- Every token of a scan but the end token is one that a reading of the text found. -/
theorem exists_reading_of_mem_tokens {s : Text} {t : Token Nat} (h : t ∈ (scan s).tokens)
    (hk : t.kind ≠ .eof) : ∃ r ∈ readings s, r.token? = some t := by
  rw [scan_eq_readings] at h
  rcases List.mem_append.1 h with h | h
  · exact List.mem_filterMap.1 h
  · rw [List.mem_singleton.1 h] at hk
    exact absurd rfl hk

/-- A reading of a scan that finds a token records it among the tokens of the scan. -/
theorem mem_tokens_of_item {s : Text} {r : Reading} {k : TokenKind} {lit : Option Literal}
    (hr : r ∈ readings s) (h : r.item = .token k lit) :
    ∃ t ∈ (scan s).tokens, t.kind = k ∧ t.literal = lit ∧ t.start = r.start.offset ∧
      t.stop = r.stop.offset := by
  rw [scan_eq_readings]
  exact ⟨_, List.mem_append_left _ (List.mem_filterMap.2 ⟨r, hr, Reading.token?_of_item h⟩),
    rfl, rfl, rfl, rfl⟩

theorem exists_reading_of_mem_errors {s : Text} {e : ScanError} (h : e ∈ (scan s).errors) :
    ∃ r ∈ readings s, r.error? = some e := by
  rw [scan_eq_readings] at h
  exact List.mem_filterMap.1 h

/-- A token of a scan other than the end token was read by `lexAt` where the text has it. -/
theorem lexAt_of_mem_tokens {s : Text} {t : Token Nat} (h : t ∈ (scan s).tokens)
    (hk : t.kind ≠ .eof) :
    ∃ u rest n, s.units.drop t.start = u :: rest ∧ lexAt u rest = (.token t.kind t.literal, n) ∧
      t.lexeme.units = u :: rest.take n ∧ t.stop = t.start + (n + 1) := by
  obtain ⟨r, hr, ht⟩ := exists_reading_of_mem_tokens h hk
  obtain ⟨hitem, hlexeme, hstart, hstop, -, -⟩ := Reading.token?_eq_some ht
  obtain ⟨-, u, rest, n, hdrop, hlex, hunits⟩ := readsIn_of_mem_readings hr
  have hn : n ≤ rest.length := (lexed_of_lexAt_eq hlex).1
  refine ⟨u, rest, n, by rw [hstart, hdrop], by rw [hlex, hitem], by rw [hlexeme, hunits], ?_⟩
  rw [hstop, Reading.stop_offset, hunits, hstart, List.length_cons, List.length_take,
    Nat.min_eq_left hn]

end ExprFront.Scan
