import ExprFront.Proofs.Scan.Step
import Mathlib.Data.List.Chain
/-!
# A scan cuts the text into tokens and gaps

The tokens of a scan lie in the text in order and without overlap, each spelling the units
between its start and its stop, and the end-of-input token comes last, empty, at the end of the
text. What lies between tokens was either blank or an error: so when a scan finds no error, the
gaps before the tokens are all blank, and the gaps and lexemes in order give the text back.

Each property is a run lemma about `scanFrom` from any position, proved by the scanner's own
induction (`scanFrom.induct`) from the step lemmas of `Proofs/Scan/Step`. A run from a position
is about the units left there, which the text has from that offset on.

Main statement (`scan_segments`).
-/

namespace ExprFront.Scan

/-- The gaps before the tokens, from offset `stop` on: before each token, the units of `s` from
the stop of the token before it up to its start. -/
def gapsFrom (s : Text) : Nat → List (Token Nat) → List Text
  | _, [] => []
  | stop, t :: ts => s.slice stop t.start :: gapsFrom s t.stop ts

/-- The gaps before the tokens of a text, the first from its start. -/
def gaps (s : Text) (tokens : List (Token Nat)) : List Text := gapsFrom s 0 tokens

/-- Gaps and lexemes, one after the other. -/
def interleave : List Text → List (Token Nat) → List UInt16
  | g :: gs, t :: ts => g.units ++ t.lexeme.units ++ interleave gs ts
  | _, _ => []

/-- A blank unit is a space, a tab, a carriage return or a line feed. -/
theorem mem_blank_of_isSpace {u : UInt16} (h : isSpace u = true) :
    u ∈ [0x20, 0x09, 0x0D, 0x0A] := by
  simpa [isSpace, or_assoc] using h

theorem Position.offset_le_after (p : Position) (us : List UInt16) :
    p.offset ≤ (p.after us).offset := by
  simp

theorem Text.slice_self (s : Text) (a : Nat) : s.slice a a = Text.empty := by
  simp [Text.slice, Text.empty]

/-- A slice from where the text has `u :: rest` starts with `u`. -/
theorem Text.units_slice_of_drop {s : Text} {a b : Nat} {u : UInt16} {rest : List UInt16}
    (hs : s.units.drop a = u :: rest) (hab : a < b) :
    (s.slice a b).units = u :: (s.slice (a + 1) b).units := by
  have hrest : s.units.drop (a + 1) = rest := by
    rw [← List.drop_drop, hs, List.drop_one, List.tail_cons]
  simp only [Text.slice, hs, hrest]
  rw [show b - a = (b - (a + 1)) + 1 by omega, List.take_succ_cons]

theorem drop_offset_after {s : Text} {p : Position} {u : UInt16} {rest : List UInt16} {n : Nat}
    (hs : s.units.drop p.offset = u :: rest) (hn : n ≤ rest.length) :
    s.units.drop (p.after (u :: rest.take n)).offset = rest.drop n := by
  rw [Position.offset_after_take hn, ← List.drop_drop, hs, List.drop_succ_cons]

/-! ## The end of input comes last -/

theorem scanFrom_tokens_eq (p : Position) (us : List UInt16) :
    ∃ body, (scanFrom p us).tokens = body ++ [endToken (p.after us)] ∧
      ∀ t ∈ body, t.kind ≠ .eof ∧ t.start < t.stop := by
  induction p, us using scanFrom.induct with
  | case1 p => exact ⟨[], by rw [scanFrom_nil]; rfl, by simp⟩
  | case2 p u rest n _ _ h ih =>
    obtain ⟨body, hbody, hbodies⟩ := ih
    exact ⟨body, by rw [scanFrom_blank h, hbody, Position.after_take_drop], hbodies⟩
  | case3 p u rest n _ _ k lit h ih =>
    obtain ⟨body, hbody, hbodies⟩ := ih
    have hlex := lexed_of_lexAt_eq h
    refine ⟨_ :: body, by rw [scanFrom_token h, hbody, Position.after_take_drop]; rfl, ?_⟩
    intro t ht
    rcases List.mem_cons.1 ht with rfl | ht
    · exact ⟨hlex.2, by dsimp only; rw [Position.offset_after_take hlex.1]; omega⟩
    · exact hbodies t ht
  | case4 p u rest n _ _ kind text h ih =>
    obtain ⟨body, hbody, hbodies⟩ := ih
    exact ⟨body, by rw [scanFrom_error h, hbody, Position.after_take_drop], hbodies⟩

theorem scanFrom_tokens_ne_nil (p : Position) (us : List UInt16) :
    (scanFrom p us).tokens ≠ [] := by
  obtain ⟨body, hbody, -⟩ := scanFrom_tokens_eq p us
  rw [hbody]
  exact List.concat_ne_nil _ _

/-! ## Where the tokens lie -/

theorem scanFrom_start_le (p : Position) (us : List UInt16) :
    ∀ t ∈ (scanFrom p us).tokens, p.offset ≤ t.start := by
  induction p, us using scanFrom.induct with
  | case1 p =>
    rw [scanFrom_nil]
    intro t ht
    rw [List.mem_singleton.1 ht]
    exact Nat.le_refl _
  | case2 p u rest n _ _ h ih =>
    rw [scanFrom_blank h]
    exact fun t ht => Nat.le_trans (Position.offset_le_after _ _) (ih t ht)
  | case3 p u rest n _ _ k lit h ih =>
    rw [scanFrom_token h]
    intro t ht
    rcases List.mem_cons.1 ht with rfl | ht
    · exact Nat.le_refl _
    · exact Nat.le_trans (Position.offset_le_after _ _) (ih t ht)
  | case4 p u rest n _ _ kind text h ih =>
    rw [scanFrom_error h]
    exact fun t ht => Nat.le_trans (Position.offset_le_after _ _) (ih t ht)

/-- Every token spells the units of the text between its start and its stop. -/
theorem scanFrom_lexeme (s : Text) (p : Position) (us : List UInt16)
    (hs : s.units.drop p.offset = us) :
    ∀ t ∈ (scanFrom p us).tokens, t.lexeme = s.slice t.start t.stop := by
  induction p, us using scanFrom.induct with
  | case1 p =>
    rw [scanFrom_nil]
    intro t ht
    rw [List.mem_singleton.1 ht]
    exact (Text.slice_self s p.offset).symm
  | case2 p u rest n _ _ h ih =>
    have hlex := lexed_of_lexAt_eq h
    rw [scanFrom_blank h]
    exact ih (drop_offset_after hs hlex.1)
  | case3 p u rest n _ _ k lit h ih =>
    have hlex := lexed_of_lexAt_eq h
    rw [scanFrom_token h]
    intro t ht
    rcases List.mem_cons.1 ht with rfl | ht
    · -- the new token: `u` and the `n` units it took
      simp only [Text.slice, hs, Position.offset_after_take hlex.1]
      rw [show p.offset + (n + 1) - p.offset = n + 1 by omega, List.take_succ_cons]
    · exact ih (drop_offset_after hs hlex.1) t ht
  | case4 p u rest n _ _ kind text h ih =>
    have hlex := lexed_of_lexAt_eq h
    rw [scanFrom_error h]
    exact ih (drop_offset_after hs hlex.1)

/-- Each token stops before the next one starts. -/
theorem scanFrom_isChain (p : Position) (us : List UInt16) :
    (scanFrom p us).tokens.IsChain (fun a b => a.stop ≤ b.start) := by
  induction p, us using scanFrom.induct with
  | case1 p =>
    rw [scanFrom_nil]
    exact .singleton _
  | case2 p u rest n _ _ h ih =>
    rw [scanFrom_blank h]
    exact ih
  | case3 p u rest n _ _ k lit h ih =>
    rw [scanFrom_token h]
    -- the next token starts no sooner than the step stopped
    have hstart := scanFrom_start_le (p.after (u :: rest.take n)) (rest.drop n)
    revert ih hstart
    cases (scanFrom (p.after (u :: rest.take n)) (rest.drop n)).tokens with
    | nil => exact fun _ _ => .singleton _
    | cons t ts => exact fun ih hstart => .cons_cons (hstart t List.mem_cons_self) ih
  | case4 p u rest n _ _ kind text h ih =>
    rw [scanFrom_error h]
    exact ih

/-! ## The gaps -/

/-- A run that finds no error leaves only blank units between its tokens, and its gaps and
lexemes give back the units it ran over. -/
theorem scanFrom_gaps (s : Text) (p : Position) (us : List UInt16)
    (hs : s.units.drop p.offset = us) (herr : (scanFrom p us).errors = []) :
    (∀ g ∈ gapsFrom s p.offset (scanFrom p us).tokens, ∀ u ∈ g.units, u ∈ [0x20, 0x09, 0x0D, 0x0A]) ∧
      interleave (gapsFrom s p.offset (scanFrom p us).tokens) (scanFrom p us).tokens = us := by
  induction p, us using scanFrom.induct with
  | case1 p =>
    rw [scanFrom_nil]
    refine ⟨?_, ?_⟩
    · simp [gapsFrom, endToken, Text.slice_self, Text.empty]
    · simp [gapsFrom, interleave, endToken, Text.slice_self, Text.empty]
  | case2 p u rest n _ _ h ih =>
    have hlex := lexed_of_lexAt_eq h
    obtain ⟨-, hspace, rfl⟩ := hlex
    rw [scanFrom_blank h] at herr ⊢
    obtain ⟨hblank, hjoin⟩ := ih (drop_offset_after hs (Nat.zero_le _)) herr
    have hstart := scanFrom_start_le (p.after (u :: rest.take 0)) (rest.drop 0)
    rw [Position.offset_after_take (Nat.zero_le _)] at hblank hjoin hstart
    obtain ⟨t, ts, hcons⟩ := List.exists_cons_of_ne_nil (scanFrom_tokens_ne_nil
      (p.after (u :: rest.take 0)) (rest.drop 0))
    rw [hcons] at hblank hjoin hstart ⊢
    -- the blank unit joins the gap before the next token
    have hslice := Text.units_slice_of_drop hs (hstart t List.mem_cons_self)
    simp only [gapsFrom, interleave] at hblank hjoin ⊢
    refine ⟨fun g hg v hv => ?_, ?_⟩
    · rcases List.mem_cons.1 hg with rfl | hg
      · rw [hslice] at hv
        rcases List.mem_cons.1 hv with rfl | hv
        · exact mem_blank_of_isSpace hspace
        · exact hblank _ List.mem_cons_self v hv
      · exact hblank g (List.mem_cons_of_mem _ hg) v hv
    · rw [hslice, List.cons_append, List.cons_append, hjoin, List.drop_zero]
  | case3 p u rest n _ _ k lit h ih =>
    have hlex := lexed_of_lexAt_eq h
    rw [scanFrom_token h] at herr ⊢
    obtain ⟨hblank, hjoin⟩ := ih (drop_offset_after hs hlex.1) herr
    simp only [gapsFrom, interleave, Text.slice_self] at hblank hjoin ⊢
    refine ⟨fun g hg v hv => ?_, ?_⟩
    · rcases List.mem_cons.1 hg with rfl | hg
      · simp [Text.empty] at hv
      · exact hblank g hg v hv
    · rw [hjoin]
      simp [Text.empty]
  | case4 p u rest n _ _ kind text h ih =>
    rw [scanFrom_error h] at herr
    cases herr

/-- A scan cuts the text into tokens: the end-of-input token comes last and only there, empty, at
the end of the text; every other token spells the nonempty stretch of the text between its start
and its stop; each token stops before the next starts. When the scan finds no error, the gaps
before the tokens hold blank units only, and the gaps and lexemes in order are the text. -/
theorem scan_segments (s : Text) :
    ∃ body eof, (scan s).tokens = body ++ [eof] ∧
      eof.kind = .eof ∧ eof.start = s.length ∧ eof.stop = s.length ∧ eof.lexeme = Text.empty ∧
      (∀ t ∈ body, t.kind ≠ .eof ∧ t.start < t.stop ∧ t.lexeme = s.slice t.start t.stop) ∧
      (scan s).tokens.IsChain (fun a b => a.stop ≤ b.start) ∧
      ((scan s).errors = [] →
        (∀ g ∈ gaps s (scan s).tokens, ∀ u ∈ g.units, u ∈ [0x20, 0x09, 0x0D, 0x0A]) ∧
        interleave (gaps s (scan s).tokens) (scan s).tokens = s.units) := by
  unfold scan gaps
  have hs : s.units.drop Position.initial.offset = s.units := List.drop_zero
  have hend : (Position.initial.after s.units).offset = s.length := by
    simp [Position.initial, Text.length]
  obtain ⟨body, hbody, hbodies⟩ := scanFrom_tokens_eq Position.initial s.units
  have hlexeme := scanFrom_lexeme s Position.initial s.units hs
  rw [hbody] at hlexeme
  refine ⟨body, _, hbody, rfl, hend, hend, rfl, fun t ht => ⟨(hbodies t ht).1, (hbodies t ht).2,
    hlexeme t (List.mem_append_left _ ht)⟩, scanFrom_isChain _ _, fun herr => ?_⟩
  exact scanFrom_gaps s Position.initial s.units hs herr

end ExprFront.Scan
