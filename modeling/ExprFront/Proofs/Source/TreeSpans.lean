import ExprFront.Proofs.Parse.Spans
import ExprFront.Proofs.Source.Reprint
import ExprFront.Proofs.Scan.Segmentation
import ExprFront.Proofs.Source.EndOfInput
/-!
# Where a parsed tree lies in its text

A parse that gives a tree has read the tokens a parser reads and found them to derive that
tree, so the tree spans them and each of its nodes spans the stretch of them it was built from
(`Sentence.Comma.spans`). The tokens of a scan lie in source order, so the nodes of a tree
parsed from them nest (`Sentence.Comma.nested`). And a scan that finds no error leaves no unit
outside its tokens but blank ones: past the end of the tree, where no token the parser read
reaches, the text holds only blanks and comments.

Main statement (`parse_node_spans`).
-/

namespace ExprFront

open Grammar Sentence

/-- A whole expression is read only up to an end-of-input token. -/
theorem Grammar.parseAll_ok_peek {π : Type} {env : Env π} {d : Nat} {ts r : List (Token π)}
    {e : Expr π} (h : (parseAll env d ts).view = (.ok e, r)) : (env.peek r).kind = .eof := by
  rw [parseAll_view] at h
  generalize (comma env d ts).view = o at h
  obtain ⟨_ | e₀, r₀⟩ := o
  · simp at h
  · rw [andThen_ok, expect_view] at h
    split at h
    · simp only [if_pos, andThen_ok, Prod.mk.injEq] at h
      obtain ⟨-, rfl⟩ := h
      assumption
    · simp at h

namespace Sentence

variable {π : Type}

theorem readable_sublist (tokens : List (Token π)) : (readable tokens).Sublist tokens :=
  (List.takeWhile_prefix _).sublist.trans (List.filter_sublist)

/-- The readable tokens of a list that parses into a tree derive that tree. -/
theorem Comma.of_parseTokens [Coord π] {tokens : List (Token π)} {e : Expr π}
    (h : parseTokens tokens = .ok e) : ∃ n, Comma (readable tokens) e n := by
  have : Inhabited π := ⟨Coord.ofCount 0⟩
  generalize hts : dropComments tokens = ts
  generalize henv : Env.ofTokens ts (some maxNesting) = env
  have hend : env.atEnd.kind = .eof := henv ▸ endTokenAfter_kind ts
  have hparse : parseTokens tokens = (parseAll env 0 ts).view.1 := by
    rw [← henv, ← hts]; rfl
  rw [hparse] at h
  have hview : (parseAll env 0 ts).view = (.ok e, (parseAll env 0 ts).view.2) := Prod.ext h rfl
  obtain ⟨p, n, hsplit, hp, -⟩ := Comma.of_parseAll hend hview
  have hpeek := parseAll_ok_peek hview
  -- the parse stopped at an end-of-input token, where the readable tokens stop too
  have hw : readable tokens = p := by
    unfold readable
    rw [hts, hsplit, List.takeWhile_append_of_pos (by simpa using hp.kind_ne_eof)]
    generalize (parseAll env 0 ts).view.2 = r at hpeek
    cases r with
    | nil => simp
    | cons t rest => simp [show t.kind = .eof from hpeek]
  exact ⟨n, hw ▸ hp⟩

end Sentence

namespace Scan

/-- The tokens of a run lie in source order. -/
theorem scanFrom_ordered (p : Position) (us : List UInt16) : Ordered (scanFrom p us).tokens := by
  induction p, us using scanFrom.induct with
  | case1 p =>
    rw [scanFrom_nil]
    simp [Ordered, endToken]
  | case2 p u rest n _ _ h ih =>
    rw [scanFrom_blank h]
    exact ih
  | case3 p u rest n _ _ k lit h ih =>
    rw [scanFrom_token h]
    -- the new token stops where the rest of the run starts
    have hstart := scanFrom_start_le (p.after (u :: rest.take n)) (rest.drop n)
    refine ⟨List.pairwise_cons.2 ⟨hstart, ih.1⟩, fun t ht => ?_⟩
    rcases List.mem_cons.1 ht with rfl | ht
    · exact Position.offset_le_after _ _
    · exact ih.2 t ht
  | case4 p u rest n _ _ kind text h ih =>
    rw [scanFrom_error h]
    exact ih

/-- A run that finds no error leaves no unit outside its tokens but blank ones. -/
theorem scanFrom_covers (p : Position) (us : List UInt16) (herr : (scanFrom p us).errors = []) :
    ∀ i u, us[i]? = some u → isSpace u = true ∨
      ∃ t ∈ (scanFrom p us).tokens, t.start ≤ p.offset + i ∧ p.offset + i < t.stop := by
  induction p, us using scanFrom.induct with
  | case1 p => simp
  | case2 p u rest n lexeme next h ih =>
    obtain ⟨-, hspace, rfl⟩ := lexed_of_lexAt_eq h
    rw [scanFrom_blank h] at herr ⊢
    have hnext : next.offset = p.offset + (0 + 1) := Position.offset_after_take (Nat.zero_le _)
    intro i v hv
    cases i with
    | zero =>
      obtain rfl : u = v := by simpa using hv
      exact .inl hspace
    | succ i =>
      rcases ih herr i v (by simpa using hv) with hs | ⟨t, ht, hlo, hhi⟩
      · exact .inl hs
      · exact .inr ⟨t, ht, by omega, by omega⟩
  | case3 p u rest n lexeme next k lit h ih =>
    have hlex := lexed_of_lexAt_eq h
    rw [scanFrom_token h] at herr ⊢
    have hoff : (p.after (u :: rest.take n)).offset = p.offset + (n + 1) :=
      Position.offset_after_take hlex.1
    have hnext : next.offset = p.offset + (n + 1) := hoff
    intro i v hv
    by_cases hi : i ≤ n
    · -- inside the lexeme of the new token
      exact .inr ⟨_, List.mem_cons_self, Nat.le_add_right _ _, by dsimp only; omega⟩
    · obtain ⟨j, rfl⟩ : ∃ j, i = n + 1 + j := ⟨i - (n + 1), by omega⟩
      have hv' : (rest.drop n)[j]? = some v := by
        rw [List.getElem?_drop, ← hv, Nat.add_assoc, Nat.add_comm 1 j, ← Nat.add_assoc,
          List.getElem?_cons_succ]
      rcases ih herr j v hv' with hs | ⟨t, ht, hlo, hhi⟩
      · exact .inl hs
      · exact .inr ⟨t, List.mem_cons_of_mem _ ht, by omega, by omega⟩
  | case4 p u rest n _ _ kind text h ih =>
    rw [scanFrom_error h] at herr
    cases herr

/-- The tokens a parser reads from a scan lie in source order. -/
theorem readable_scan_ordered (s : Text) : Ordered (readable (scan s).tokens) :=
  (scanFrom_ordered _ _).of_sublist (readable_sublist _)

/-- A parser reads every token of a scan that holds a unit and is no comment. -/
theorem mem_readable_scan {s : Text} {t : Token Nat} (ht : t ∈ (scan s).tokens)
    (hlt : t.start < t.stop) (hk : t.kind ≠ .comment) : t ∈ readable (scan s).tokens := by
  obtain ⟨body, hbody, hbodies⟩ := scanFrom_tokens_eq Position.initial s.units
  have hscan : (scan s).tokens = body ++ [endToken (Position.initial.after s.units)] := hbody
  -- only the end token holds no unit
  have htb : t ∈ body := by
    rw [hscan] at ht
    rcases List.mem_append.1 ht with ht | ht
    · exact ht
    · rw [List.mem_singleton.1 ht] at hlt
      exact absurd hlt (Nat.lt_irrefl _)
  have hpos : ∀ x ∈ dropComments body, (x.kind != .eof) = true := fun x hx => by
    simpa using (hbodies x (List.mem_filter.1 hx).1).1
  rw [readable, hscan, dropComments_append, List.takeWhile_append_of_pos hpos]
  exact List.mem_append_left _ (List.mem_filter.2 ⟨htb, by simpa using hk⟩)

end Scan

open Scan

/-- Every node of a parsed tree spans the tokens it was built from: a tree parsed from a list of
tokens is derived from the tokens a parser reads, and each of its nodes from a stretch of them,
from the start of the first token of that stretch to the stop of the last. Over the tokens of
a scan, each child lies inside its parent and the children of a node follow one another in
the text; and when the scan found no error, each unit of the text past the end of the tree is
blank or lies inside a comment. -/
theorem parse_node_spans :
    (∀ {π : Type} [Coord π] (tokens : List (Token π)) (e : Expr π), parseTokens tokens = .ok e →
      SpansTokens (readable tokens) e ∧ NodesSpan (readable tokens) e) ∧
    ∀ (s : Text) (e : Expr Nat), parseTokens (scan s).tokens = .ok e →
      (∀ m ∈ e.nodes, Nested m) ∧
      ((scan s).errors = [] → ∀ o u, e.span.stop ≤ o → s.units[o]? = some u →
        isSpace u = true ∨ ∃ t ∈ (scan s).tokens, t.kind = .comment ∧ t.start ≤ o ∧ o < t.stop) := by
  refine ⟨fun tokens e h => ?_, fun s e h => ?_⟩
  · obtain ⟨n, hn⟩ := Comma.of_parseTokens h
    exact hn.spans
  obtain ⟨n, hn⟩ := Comma.of_parseTokens h
  have hw := readable_scan_ordered s
  refine ⟨hn.nested hw, fun herr o u ho hu => ?_⟩
  have hcover := scanFrom_covers Position.initial s.units herr o u hu
  rw [show Position.initial.offset + o = o from Nat.zero_add o] at hcover
  rcases hcover with hs | ⟨t, ht, hlo, hhi⟩
  · exact .inl hs
  refine .inr ⟨t, ht, Decidable.byContradiction fun hk => ?_, hlo, hhi⟩
  -- a token the parser read stops by the end of the tree, so before `o`
  have hread := mem_readable_scan ht (Nat.lt_of_le_of_lt hlo hhi) hk
  obtain ⟨a, b, -, hb, he⟩ := hn.spans.1
  have hstop := hw.stop_le_last hb hread
  rw [he] at ho
  exact absurd (Nat.lt_of_lt_of_le hhi (Nat.le_trans hstop ho)) (Nat.lt_irrefl _)

/-- In `!(0 == nil) // x` the tree stops at the closing parenthesis, and a blank and a comment
follow it. -/
theorem parse_node_spans_comment :
    ∃ e, parseTokens (scan (Text.ofString "!(0 == nil) // x")).tokens = .ok e ∧
      e.span = ⟨0, 11⟩ ∧ (scan (Text.ofString "!(0 == nil) // x")).errors = [] ∧
      (SpansTokens (readable (scan (Text.ofString "!(0 == nil) // x")).tokens) e ∧
        NodesSpan (readable (scan (Text.ofString "!(0 == nil) // x")).tokens) e) ∧
      (∀ m ∈ e.nodes, Nested m) ∧
      ∀ o u, e.span.stop ≤ o → (Text.ofString "!(0 == nil) // x").units[o]? = some u →
        isSpace u = true ∨ ∃ t ∈ (scan (Text.ofString "!(0 == nil) // x")).tokens,
          t.kind = .comment ∧ t.start ≤ o ∧ o < t.stop := by
  have he : parseTokens (scan (Text.ofString "!(0 == nil) // x")).tokens = .ok
      (.unary ⟨.bang, ⟨[0x21]⟩, none, 1, 1, 0, 1⟩
        (.grouping
          (.binary (.literal (.number Binary64.zero) ⟨2, 3⟩)
            ⟨.equalEqual, ⟨[0x3D, 0x3D]⟩, none, 1, 5, 4, 6⟩
            (.literal .nil ⟨7, 10⟩))
          ⟨1, 11⟩)) := by
    decide +kernel
  have herr : (scan (Text.ofString "!(0 == nil) // x")).errors = [] := by
    decide +kernel
  exact ⟨_, he, rfl, herr, parse_node_spans.1 _ _ he, (parse_node_spans.2 _ _ he).1,
    (parse_node_spans.2 _ _ he).2 herr⟩

end ExprFront
