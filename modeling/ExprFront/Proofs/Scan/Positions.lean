import ExprFront.Proofs.Scan.Segmentation
/-!
# Where a scan says its tokens and errors are

The scanner keeps its line and column step by step, yet both are functions of the offset alone:
the line is one more than the line feeds before it, the column counts from the last of them
(`Position.after_line`, `Position.after_column`). A run keeps the invariant that the scanner
stands where a walk from the start of the text over its first `offset` units ends
(`positionAt`); so every token, the end of input included, carries the line and column of its
start, and every error those of the offset where its step began, where the text reads its
lexeme. The errors come in the order of those offsets.

Main statement (`scan_positions`).
-/

namespace ExprFront

namespace Text

/-- The line of offset `o`: one more than the line feeds before it. -/
def lineAt (s : Text) (o : Nat) : Nat := 1 + (s.slice 0 o).count 0x0A

/-- The column of offset `o`: its distance from the last line feed before it, taken to stand one
unit before the text when there is none. -/
def columnAt (s : Text) (o : Nat) : Nat :=
  match (s.slice 0 o).lastIndexOf? 0x0A with
  | some k => o - k
  | none => o + 1

theorem slice_zero (s : Text) (o : Nat) : s.slice 0 o = ⟨s.units.take o⟩ := by
  simp [slice]

theorem lastIndexOf?_append_singleton (us : List UInt16) (u x : UInt16) :
    lastIndexOf? ⟨us ++ [u]⟩ x = if u = x then some us.length else lastIndexOf? ⟨us⟩ x := by
  unfold lastIndexOf?
  by_cases hu : u = x
  · simp [List.zipIdx_append, List.filter_append, hu]
  · simp [List.zipIdx_append, List.filter_append, hu]

theorem lastIndexOf?_lt {t : Text} {x : UInt16} {k : Nat} (h : t.lastIndexOf? x = some k) :
    k < t.length := by
  obtain ⟨q, hq, rfl⟩ := Option.map_eq_some_iff.1 h
  have hmem := List.mem_of_mem_filter (List.mem_of_getLast? hq)
  simpa [Text.length] using (List.mem_zipIdx hmem).2.1

end Text

namespace Scan

namespace Position

/-- The line after a walk: one more for every line feed on the way. -/
theorem after_line (p : Position) (us : List UInt16) :
    (p.after us).line = p.line + us.count 0x0A := by
  induction us using List.reverseRecOn with
  | nil => rfl
  | append_singleton us u ih =>
    rw [after_append, after_cons, after_nil, List.count_append, ← Nat.add_assoc, ← ih]
    unfold step
    by_cases hu : u = 0x0A <;> simp [hu]

/-- The column after a walk: counted from the last line feed on the way, or on from the column
it started at when there is none. -/
theorem after_column (p : Position) (us : List UInt16) :
    (p.after us).column =
      match Text.lastIndexOf? ⟨us⟩ 0x0A with
      | some k => us.length - k
      | none => p.column + us.length := by
  induction us using List.reverseRecOn with
  | nil => rfl
  | append_singleton us u ih =>
    rw [after_append, after_cons, after_nil, Text.lastIndexOf?_append_singleton]
    unfold step
    by_cases hu : u = 0x0A
    · simp [hu]
    · simp only [hu, beq_iff_eq, if_false, ih, List.length_append, List.length_singleton]
      cases hk : Text.lastIndexOf? ⟨us⟩ 0x0A with
      | none =>
        simp only
        omega
      | some k =>
        have hlt : k < us.length := Text.lastIndexOf?_lt hk
        simp only
        omega

end Position

/-- Where a walk from the start of `s` over its first `o` units ends. -/
def positionAt (s : Text) (o : Nat) : Position := Position.initial.after (s.units.take o)

/-- A walk that reaches offset `o` ends at the line and column the text has there. -/
theorem positionAt_eq_mk {s : Text} {o line column : Nat}
    (h : positionAt s o = ⟨o, line, column⟩) : line = s.lineAt o ∧ column = s.columnAt o := by
  have hoffset : (positionAt s o).offset = o := by rw [h]
  have hline : (positionAt s o).line = line := by rw [h]
  have hcolumn : (positionAt s o).column = column := by rw [h]
  have ho : (s.units.take o).length = o := by
    simpa [positionAt, Position.initial] using hoffset
  refine ⟨?_, ?_⟩
  · rw [← hline, positionAt, Position.after_line]
    simp [Text.lineAt, Text.slice_zero, Text.count, Position.initial]
  · rw [← hcolumn, positionAt, Position.after_column, ho, Text.columnAt, Text.slice_zero]
    split <;> simp [Position.initial, Nat.add_comm]

/-- A walk on from where the text has `us`, over a prefix of `us`, ends where the walk from the
start of the text does. -/
theorem positionAt_after {s : Text} {p : Position} {us vs : List UInt16}
    (hs : s.units.drop p.offset = us) (hp : positionAt s p.offset = p) (hvs : vs <+: us) :
    positionAt s (p.after vs).offset = p.after vs := by
  have htake : s.units.take (p.after vs).offset = s.units.take p.offset ++ vs := by
    rw [Position.offset_after, List.take_add, hs, ← List.prefix_iff_eq_take.1 hvs]
  rw [positionAt, htake, Position.after_append]
  exact congrArg (Position.after · vs) hp

theorem positionAt_step {s : Text} {p : Position} {u : UInt16} {rest : List UInt16} (n : Nat)
    (hs : s.units.drop p.offset = u :: rest) (hp : positionAt s p.offset = p) :
    positionAt s (p.after (u :: rest.take n)).offset = p.after (u :: rest.take n) :=
  positionAt_after hs hp (List.take_prefix (n + 1) (u :: rest))

/-- Every token of a run stands where the walk from the start of the text reaches its start. -/
theorem scanFrom_token_positions (s : Text) (p : Position) (us : List UInt16)
    (hs : s.units.drop p.offset = us) (hp : positionAt s p.offset = p) :
    ∀ t ∈ (scanFrom p us).tokens, positionAt s t.start = ⟨t.start, t.line, t.column⟩ := by
  induction p, us using scanFrom.induct with
  | case1 p =>
    rw [scanFrom_nil]
    intro t ht
    rw [List.mem_singleton.1 ht]
    exact hp
  | case2 p u rest n _ _ h ih =>
    have hlex := lexed_of_lexAt_eq h
    rw [scanFrom_blank h]
    exact ih (drop_offset_after hs hlex.1) (positionAt_step n hs hp)
  | case3 p u rest n _ _ k lit h ih =>
    have hlex := lexed_of_lexAt_eq h
    rw [scanFrom_token h]
    intro t ht
    rcases List.mem_cons.1 ht with rfl | ht
    · exact hp
    · exact ih (drop_offset_after hs hlex.1) (positionAt_step n hs hp) t ht
  | case4 p u rest n _ _ kind text h ih =>
    have hlex := lexed_of_lexAt_eq h
    rw [scanFrom_error h]
    exact ih (drop_offset_after hs hlex.1) (positionAt_step n hs hp)

/-- Every error of a run has the offset where its step began: the text reads the error's lexeme
there, and the walk from the start of the text reaches it at the error's line and column. The
offsets grow from error to error. -/
theorem scanFrom_error_positions (s : Text) (p : Position) (us : List UInt16)
    (hs : s.units.drop p.offset = us) (hp : positionAt s p.offset = p) :
    ∃ os, List.Forall₂ (fun e o => e.lexeme.units <+: s.units.drop o ∧
        positionAt s o = ⟨o, e.line, e.column⟩) (scanFrom p us).errors os ∧
      os.Pairwise (· < ·) ∧ ∀ o ∈ os, p.offset ≤ o := by
  induction p, us using scanFrom.induct with
  | case1 p => exact ⟨[], by rw [scanFrom_nil]; exact .nil, .nil, by simp⟩
  | case2 p u rest n _ _ h ih =>
    have hlex := lexed_of_lexAt_eq h
    obtain ⟨os, hall, hsorted, hafter⟩ :=
      ih (drop_offset_after hs hlex.1) (positionAt_step n hs hp)
    rw [scanFrom_blank h]
    exact ⟨os, hall, hsorted,
      fun o ho => Nat.le_trans (Position.offset_le_after _ _) (hafter o ho)⟩
  | case3 p u rest n _ _ k lit h ih =>
    have hlex := lexed_of_lexAt_eq h
    obtain ⟨os, hall, hsorted, hafter⟩ :=
      ih (drop_offset_after hs hlex.1) (positionAt_step n hs hp)
    rw [scanFrom_token h]
    exact ⟨os, hall, hsorted,
      fun o ho => Nat.le_trans (Position.offset_le_after _ _) (hafter o ho)⟩
  | case4 p u rest n _ _ kind text h ih =>
    have hlex := lexed_of_lexAt_eq h
    obtain ⟨os, hall, hsorted, hafter⟩ :=
      ih (drop_offset_after hs hlex.1) (positionAt_step n hs hp)
    rw [scanFrom_error h]
    -- the later errors begin after the step that found this one
    have hnext : p.offset < (p.after (u :: rest.take n)).offset := by
      rw [Position.offset_after_take hlex.1]
      omega
    refine ⟨p.offset :: os, .cons ⟨?_, hp⟩ hall,
      .cons (fun o ho => Nat.lt_of_lt_of_le hnext (hafter o ho)) hsorted, ?_⟩
    · rw [hs]
      exact hlex.2
    · intro o ho
      rcases List.mem_cons.1 ho with rfl | ho
      · exact Nat.le_refl _
      · exact Nat.le_of_lt (Nat.lt_of_lt_of_le hnext (hafter o ho))

/-- Every token of a scan, the end of input included, carries the line and column its start has
in the text: one more than the line feeds before it, and the distance from the last of them. Every
error has an offset where the text reads its lexeme and which has its line and column; the errors
come in the order of those offsets. -/
theorem scan_positions (s : Text) :
    (∀ t ∈ (scan s).tokens, t.line = s.lineAt t.start ∧ t.column = s.columnAt t.start) ∧
      ∃ os : List Nat, List.Forall₂ (fun e o => e.lexeme.units <+: s.units.drop o ∧
          e.line = s.lineAt o ∧ e.column = s.columnAt o) (scan s).errors os ∧
        os.Pairwise (· < ·) := by
  unfold scan
  have hs : s.units.drop Position.initial.offset = s.units := List.drop_zero
  have hp : positionAt s Position.initial.offset = Position.initial := rfl
  obtain ⟨os, hall, hsorted, -⟩ := scanFrom_error_positions s _ _ hs hp
  refine ⟨fun t ht => positionAt_eq_mk (scanFrom_token_positions s _ _ hs hp t ht), os, ?_,
    hsorted⟩
  exact hall.imp fun e o h => ⟨h.1, positionAt_eq_mk h.2⟩

end Scan

end ExprFront
