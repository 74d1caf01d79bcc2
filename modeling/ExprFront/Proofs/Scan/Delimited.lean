import Mathlib
import ExprFront.Proofs.Scan.Walk
import ExprFront.Proofs.Scan.Routines
/-!
# Block comments nest, and open delimiters fail cleanly

Read from its `/*`, a block comment is cut greedily from the left into `/*`, `*/` and single
units; `/*` opens one level and `*/` closes one. The comment ends just after the first piece at
which no level is open any more, and its literal is the text between the outer delimiters,
trimmed. The counting in `closeBlock` is that running depth (`closeBlock_some`,
`closeBlock_none`).

A block comment that never closes, or a string with no quote after its own, takes the rest of
the text: the scan then ends with that one error, at the line and column of its opening, and
finds nothing after it but the end token (`EndsInError`).

Main statement (`scan_delimited`).
-/

namespace ExprFront.Scan

/-- A text cut greedily from the left into `/*`, `*/` and single units. -/
def delimiterPieces : List UInt16 → List (List UInt16)
  | 0x2F :: 0x2A :: rest => [0x2F, 0x2A] :: delimiterPieces rest
  | 0x2A :: 0x2F :: rest => [0x2A, 0x2F] :: delimiterPieces rest
  | u :: rest => [u] :: delimiterPieces rest
  | [] => []

/-- How a piece moves the nesting depth of block comments. -/
def pieceDepth : List UInt16 → Int
  | [0x2F, 0x2A] => 1
  | [0x2A, 0x2F] => -1
  | _ => 0

/-- The depth after the first `j + 1` pieces. -/
def depthAfter (pieces : List (List UInt16)) (j : Nat) : Int :=
  ((pieces.take (j + 1)).map pieceDepth).sum

/-- The scan of `s` ends with an error of kind `kind` and lexeme `lexeme`, at the line and
column of offset `i`, its only error of that kind; every token before it stops by `i`, and after
it comes only the end token. -/
def EndsInError (s : Text) (kind : ScanErrorKind) (lexeme : Text) (i : Nat) : Prop :=
  ∃ T E, (scan s).tokens = T ++ [endToken (Position.initial.after s.units)] ∧
    (scan s).errors = E ++ [⟨kind, lexeme, s.lineAt i, s.columnAt i⟩] ∧
    (∀ t ∈ T, t.stop ≤ i) ∧ ∀ e ∈ E, e.kind ≠ kind

/-! ## The running depth -/

@[simp] theorem depthAfter_nil (j : Nat) : depthAfter [] j = 0 := rfl

@[simp] theorem depthAfter_cons_zero (p : List UInt16) (P : List (List UInt16)) :
    depthAfter (p :: P) 0 = pieceDepth p := by
  simp [depthAfter]

@[simp] theorem depthAfter_cons_succ (p : List UInt16) (P : List (List UInt16)) (j : Nat) :
    depthAfter (p :: P) (j + 1) = pieceDepth p + depthAfter P j := by
  simp [depthAfter]

/-- One more piece in front, after which the depth is `e`, not yet zero: the depth first comes
back to zero one piece later. -/
theorem isLeast_cons {d e : Int} {p : List UInt16} {P : List (List UInt16)} {j : Nat}
    (he : e = d + pieceDepth p) (hfirst : e ≠ 0) (h : IsLeast {j | e + depthAfter P j = 0} j) :
    IsLeast {j | d + depthAfter (p :: P) j = 0} (j + 1) := by
  obtain ⟨hj, hleast⟩ := h
  have hj : e + depthAfter P j = 0 := hj
  refine ⟨?_, fun a ha => ?_⟩
  · show d + depthAfter (p :: P) (j + 1) = 0
    rw [depthAfter_cons_succ]
    omega
  · have ha : d + depthAfter (p :: P) a = 0 := ha
    cases a with
    | zero =>
      rw [depthAfter_cons_zero] at ha
      omega
    | succ a =>
      rw [depthAfter_cons_succ] at ha
      have : j ≤ a := hleast (show e + depthAfter P a = 0 by omega)
      omega

/-- One more piece in front, after which the depth is `e`, not zero: if the depth never comes
back to zero from `e`, it never does from `d`. -/
theorem never_cons {d e : Int} {p : List UInt16} {P : List (List UInt16)}
    (he : e = d + pieceDepth p) (hfirst : e ≠ 0) (h : ∀ j, e + depthAfter P j ≠ 0) :
    ∀ j, d + depthAfter (p :: P) j ≠ 0 := by
  intro j
  cases j with
  | zero =>
    rw [depthAfter_cons_zero]
    omega
  | succ j =>
    rw [depthAfter_cons_succ]
    have := h j
    omega

@[simp] theorem delimiterPieces_open (rest : List UInt16) :
    delimiterPieces (0x2F :: 0x2A :: rest) = [0x2F, 0x2A] :: delimiterPieces rest := by
  rw [delimiterPieces]

@[simp] theorem delimiterPieces_close (rest : List UInt16) :
    delimiterPieces (0x2A :: 0x2F :: rest) = [0x2A, 0x2F] :: delimiterPieces rest := by
  rw [delimiterPieces]

theorem delimiterPieces_other {v : UInt16} {rest : List UInt16}
    (h2F : ∀ rest', v = 0x2F → rest = 0x2A :: rest' → False)
    (h2A : ∀ rest', v = 0x2A → rest = 0x2F :: rest' → False) :
    delimiterPieces (v :: rest) = [v] :: delimiterPieces rest := by
  rw [delimiterPieces.eq_3 _ _ (fun r hv hr => h2F r hv hr) (fun r hv hr => h2A r hv hr)]

@[simp] theorem pieceDepth_single (v : UInt16) : pieceDepth [v] = 0 := by
  unfold pieceDepth
  split <;> simp_all

/-- The units in the first `j + 2` pieces, one piece `p` in front. -/
theorem length_take_succ_cons (p : List UInt16) (P : List (List UInt16)) (j : Nat) :
    (((p :: P).take (j + 2)).map List.length).sum =
      p.length + ((P.take (j + 1)).map List.length).sum := by
  simp [List.take_succ_cons]

/-- One more piece `p` in front, after which the depth is `e`, not yet zero: the first return to
zero, and the count of units up to it, move one piece on. -/
theorem exists_isLeast_cons {d e : Int} {p : List UInt16} {P : List (List UInt16)}
    {taken k : Nat} (he : e = d + pieceDepth p) (hfirst : e ≠ 0)
    (h : ∃ j, IsLeast {j | e + depthAfter P j = 0} j ∧
      k = taken + p.length + ((P.take (j + 1)).map List.length).sum) :
    ∃ j, IsLeast {j | d + depthAfter (p :: P) j = 0} j ∧
      k = taken + (((p :: P).take (j + 1)).map List.length).sum := by
  obtain ⟨j, hj, hk⟩ := h
  refine ⟨j + 1, isLeast_cons he hfirst hj, ?_⟩
  rw [length_take_succ_cons, hk, Nat.add_assoc]

/-- `closeBlock` at depth `d` stops just after the first piece at which the running depth,
started at `d`, comes back to zero, having counted the units up to there. -/
theorem closeBlock_some {d taken k : Nat} {body : List UInt16} (hd : 1 ≤ d)
    (h : closeBlock d taken body = some k) :
    ∃ j, IsLeast {j | (d : Int) + depthAfter (delimiterPieces body) j = 0} j ∧
      k = taken + (((delimiterPieces body).take (j + 1)).map List.length).sum := by
  fun_induction closeBlock d taken body with
  | case1 => cases h
  | case2 depth taken rest ih =>
    rw [delimiterPieces_open]
    exact exists_isLeast_cons (by simp [pieceDepth]) (by omega) (ih (by omega) h)
  | case3 depth taken rest hd1 =>
    cases h
    refine ⟨0, ⟨?_, fun a _ => Nat.zero_le a⟩, by simp⟩
    show (depth : Int) + depthAfter (delimiterPieces (0x2A :: 0x2F :: rest)) 0 = 0
    simp [pieceDepth]
    omega
  | case4 depth taken rest hd1 ih =>
    rw [delimiterPieces_close]
    exact exists_isLeast_cons (by simp [pieceDepth]; omega) (by omega) (ih (by omega) h)
  | case5 depth taken v rest h2F h2A ih =>
    rw [delimiterPieces_other h2F h2A]
    exact exists_isLeast_cons (by simp) (by omega) (ih hd h)

/-- `closeBlock` at depth `d` finds no end exactly when the running depth never comes back to
zero. -/
theorem closeBlock_none {d taken : Nat} {body : List UInt16} (hd : 1 ≤ d)
    (h : closeBlock d taken body = none) :
    ∀ j, (d : Int) + depthAfter (delimiterPieces body) j ≠ 0 := by
  fun_induction closeBlock d taken body with
  | case1 depth taken =>
    intro j
    simp [delimiterPieces]
    omega
  | case2 depth taken rest ih =>
    rw [delimiterPieces_open]
    exact never_cons (by simp [pieceDepth]) (by omega) (ih (by omega) h)
  | case3 => cases h
  | case4 depth taken rest hd1 ih =>
    rw [delimiterPieces_close]
    exact never_cons (by simp [pieceDepth]; omega) (by omega) (ih (by omega) h)
  | case5 depth taken v rest h2F h2A ih =>
    rw [delimiterPieces_other h2F h2A]
    exact never_cons (by simp) (by omega) (ih hd h)

/-- From a `/*`: the comment ends just after the first piece at which no level is open, having
taken the units up to there. -/
theorem isLeast_of_closeBlock {body : List UInt16} {k : Nat} (h : closeBlock 1 0 body = some k) :
    ∃ j, IsLeast {j | depthAfter (delimiterPieces (0x2F :: 0x2A :: body)) j = 0} j ∧
      (((delimiterPieces (0x2F :: 0x2A :: body)).take (j + 1)).map List.length).sum = k + 2 := by
  obtain ⟨j, hj, hk⟩ := closeBlock_some (Nat.le_refl 1) h
  have hopen : IsLeast {j | (0 : Int) + depthAfter ([0x2F, 0x2A] :: delimiterPieces body) j = 0}
      (j + 1) := isLeast_cons (by simp [pieceDepth]) (by omega) hj
  simp only [Int.zero_add] at hopen
  refine ⟨j + 1, by rwa [delimiterPieces_open], ?_⟩
  rw [delimiterPieces_open, length_take_succ_cons, hk]
  simp only [List.length_cons, List.length_nil]
  omega

/-- From a `/*`: when `closeBlock` finds no end, the depth never comes back to zero. -/
theorem never_of_closeBlock {body : List UInt16} (h : closeBlock 1 0 body = none) (j : Nat) :
    depthAfter (delimiterPieces (0x2F :: 0x2A :: body)) j ≠ 0 := by
  have hopen := never_cons (d := 0) (p := [0x2F, 0x2A]) (by simp [pieceDepth]) (by omega)
    (closeBlock_none (Nat.le_refl 1) h) j
  rwa [Int.zero_add, ← delimiterPieces_open] at hopen

/-! ## Errors that take the rest of the text -/

section RunsToEnd

variable {s : Text} {u : UInt16} {rest : List UInt16} {kind : ScanErrorKind} {text : Text}
  {n : Nat}

/-- An error that runs to the end takes every unit after the one it starts with. -/
theorem lexAt_runsToEnd (h : lexAt u rest = (.error kind text, n)) (hk : kind.runsToEnd = true) :
    n = rest.length := by
  rcases lexAt_error_cases h with ⟨-, h⟩ | ⟨-, h⟩ | ⟨-, h⟩ | ⟨-, -, h⟩
  · obtain ⟨-, -, -, -, -, hn⟩ := lexSlash_error h
    exact hn
  · exact (lexString_error h).2.2.1
  · rw [lexNumber_eq] at h
    rw [(numberItem_error h).2.1] at hk
    simp [ScanErrorKind.runsToEnd] at hk
  · rw [(lexUnexpected_error h).1] at hk
    simp [ScanErrorKind.runsToEnd] at hk

/-- A reading whose error runs to the end stops at the end of the text. -/
theorem stop_of_runsToEnd {r : Reading} (hr : r.ReadsIn s) (hitem : r.item = .error kind text)
    (hk : kind.runsToEnd = true) : r.stop.offset = s.length := by
  obtain ⟨-, u, rest, n, hdrop, hlex, hunits⟩ := hr
  rw [hitem] at hlex
  have hlen := congrArg List.length hdrop
  simp only [List.length_drop, List.length_cons] at hlen
  rw [Reading.stop_offset, hunits, lexAt_runsToEnd hlex hk, List.take_length, List.length_cons,
    Text.length]
  omega

/-- A reading of a scan whose error runs to the end is its last: the scan ends with that
error, its only one of the kind, and with no token after it but the end token. -/
theorem endsInError_of_mem_readings {r : Reading} (hr : r ∈ readings s)
    (hitem : r.item = .error kind text) (hk : kind.runsToEnd = true) :
    EndsInError s kind text r.start.offset := by
  have hread := readsIn_of_mem_readings hr
  obtain ⟨W, u, rest, n, hw, -, -, hlex, -⟩ := exists_of_mem_walk hr
  rw [hitem] at hlex
  rw [lexAt_runsToEnd hlex hk, List.drop_length, walk_nil] at hw
  have hlast : readings s = W ++ [r] := hw
  obtain ⟨hline, hcolumn⟩ := hread.line_column
  refine ⟨W.filterMap Reading.token?, W.filterMap Reading.error?, ?_, ?_, ?_, ?_⟩
  · rw [scan_eq_readings, hlast, List.filterMap_append]
    simp [Reading.token?, hitem]
  · rw [scan_eq_readings, hlast, List.filterMap_append]
    simp [Reading.error?, hitem, hline, hcolumn]
  · intro t ht
    obtain ⟨q, hq, hqt⟩ := List.mem_filterMap.1 ht
    rw [(Reading.token?_eq_some hqt).2.2.2.1]
    exact stop_le_of_walk_eq hw hq
  · -- an earlier error of the kind would have run to the end before `r` began
    intro e he heq
    obtain ⟨q, hq, hqe⟩ := List.mem_filterMap.1 he
    have hqr : q ∈ readings s := by
      rw [hlast]
      exact List.mem_append_left _ hq
    have hqstop := stop_of_runsToEnd (readsIn_of_mem_readings hqr)
      (Reading.error?_eq_some hqe).1 (heq ▸ hk)
    have hle := stop_le_of_walk_eq hw hq
    have hlt := hread.start_lt
    omega

end RunsToEnd

/-! ## What the scanner reads at a delimiter -/

theorem lexSlash_open_some {body : List UInt16} {k : Nat} (h : closeBlock 1 0 body = some k) :
    lexSlash (0x2A :: body) = (comment (Text.trim ⟨body.take (k - 2)⟩), k + 1) := by
  simp [lexSlash, h]

theorem lexSlash_open_none {body : List UInt16} (h : closeBlock 1 0 body = none) :
    lexSlash (0x2A :: body) =
      (.error .unterminatedBlockComment (Text.ofString "/*"), body.length + 1) := by
  simp [lexSlash, h]

/-- A quote with no quote after it opens a string that takes the rest of the text. -/
theorem lexString_of_not_mem {rest : List UInt16} (h : 0x22 ∉ rest) :
    lexString rest = (.error .unterminatedString ⟨0x22 :: rest⟩, rest.length) := by
  have hall : rest.takeWhile (· != 0x22) = rest :=
    List.takeWhile_eq_self_iff.2 fun x hx => by
      have hne : x ≠ 0x22 := fun hx' => h (hx' ▸ hx)
      simpa using hne
  simp [lexString, hall]

section Scan

variable {s : Text} {r : Reading}

/-- Where the scanner begins a `/*`, it reads a comment up to the first piece at which no level
is open, whose literal is the text between the outer delimiters, trimmed; when there is no such
piece, the error that ends the scan. -/
theorem blockComment_of_mem_readings (hr : r ∈ readings s)
    (hpre : [0x2F, 0x2A] <+: s.units.drop r.start.offset) :
    (∀ j, IsLeast {j | depthAfter (delimiterPieces (s.units.drop r.start.offset)) j = 0} j →
      ∃ t ∈ (scan s).tokens, t.kind = .comment ∧ t.start = r.start.offset ∧
        t.stop = r.start.offset +
          (((delimiterPieces (s.units.drop r.start.offset)).take (j + 1)).map List.length).sum ∧
        t.literal = some (.string (Text.trim (s.slice (r.start.offset + 2) (t.stop - 2))))) ∧
    ((∀ j, depthAfter (delimiterPieces (s.units.drop r.start.offset)) j ≠ 0) →
      EndsInError s .unterminatedBlockComment (Text.ofString "/*") r.start.offset) := by
  obtain ⟨-, u, rest, n, hdrop, hlex, hunits⟩ := readsIn_of_mem_readings hr
  obtain ⟨body, hbody⟩ := hpre
  rw [hdrop] at hbody
  simp only [List.cons_append, List.nil_append, List.cons.injEq] at hbody
  obtain ⟨rfl, rfl⟩ := hbody
  have hafter : s.units.drop (r.start.offset + 2) = body := by
    rw [← List.drop_drop, hdrop]
    rfl
  have hstep : lexAt 0x2F (0x2A :: body) = lexSlash (0x2A :: body) := rfl
  rw [hstep] at hlex
  rw [hdrop]
  cases hk : closeBlock 1 0 body with
  | none =>
    rw [lexSlash_open_none hk] at hlex
    exact ⟨fun j hj => absurd hj.1 (never_of_closeBlock hk j),
      fun _ => endsInError_of_mem_readings hr (Prod.mk.inj hlex).1.symm rfl⟩
  | some k =>
    rw [lexSlash_open_some hk] at hlex
    obtain ⟨hitem, rfl⟩ := Prod.mk.inj hlex
    obtain ⟨j', hj', hsum⟩ := isLeast_of_closeBlock hk
    refine ⟨fun j hj => ?_, fun hnever => absurd hj'.1 (hnever j')⟩
    obtain rfl := hj.unique hj'
    -- the comment takes `/*` and the `k` units `closeBlock` counted
    have hstop : r.stop.offset = r.start.offset + (k + 2) := by
      have hle := closeBlock_le hk
      rw [Reading.stop_offset, hunits]
      simp only [List.length_cons, List.length_take]
      omega
    obtain ⟨t, ht, hkind, hlit, hstart, htstop⟩ := mem_tokens_of_item hr hitem.symm
    refine ⟨t, ht, hkind, hstart, by rw [htstop, hstop, hsum], ?_⟩
    rw [hlit, htstop, hstop, Text.slice, hafter,
      show r.start.offset + (k + 2) - 2 - (r.start.offset + 2) = k - 2 by omega]

/-- Where the scanner begins a string with no quote after its own, the error that ends the scan,
whose lexeme is the rest of the text. -/
theorem unterminatedString_of_mem_readings (hr : r ∈ readings s)
    (hquote : s.units[r.start.offset]? = some 0x22)
    (hnone : 0x22 ∉ s.units.drop (r.start.offset + 1)) :
    EndsInError s .unterminatedString (s.slice r.start.offset s.length) r.start.offset := by
  obtain ⟨-, u, rest, n, hdrop, hlex, -⟩ := readsIn_of_mem_readings hr
  rw [← List.head?_drop, hdrop] at hquote
  obtain rfl : u = 0x22 := Option.some.inj hquote
  have hrest : s.units.drop (r.start.offset + 1) = rest := by
    rw [← List.drop_drop, hdrop]
    rfl
  have hstep : lexAt 0x22 rest = lexString rest := rfl
  rw [hrest] at hnone
  rw [hstep, lexString_of_not_mem hnone] at hlex
  have hslice : s.slice r.start.offset s.length = ⟨0x22 :: rest⟩ := by
    rw [Text.slice, hdrop, List.take_of_length_le]
    have hlen := congrArg List.length hdrop
    simp only [List.length_drop] at hlen
    rw [← hlen, Text.length]
  rw [hslice]
  exact endsInError_of_mem_readings hr (Prod.mk.inj hlex).1.symm rfl

end Scan

/-- Block comments nest: cut greedily into `/*`, `*/` and single units from where the scanner
begins one, the comment ends just after the first piece at which the running depth is back to
zero, and carries the text between its outer delimiters, trimmed. A block comment that never
closes, and a string with no quote after its own, end the scan with their error, at the line and
column where they open: its only error of that kind, with no token after it but the end token. -/
theorem scan_delimited (s : Text) :
    (∀ i ∈ (readings s).map (·.start.offset), [0x2F, 0x2A] <+: s.units.drop i →
      (∀ j, IsLeast {j | depthAfter (delimiterPieces (s.units.drop i)) j = 0} j →
        ∃ t ∈ (scan s).tokens, t.kind = .comment ∧ t.start = i ∧
          t.stop = i + (((delimiterPieces (s.units.drop i)).take (j + 1)).map List.length).sum ∧
          t.literal = some (.string (Text.trim (s.slice (i + 2) (t.stop - 2))))) ∧
      ((∀ j, depthAfter (delimiterPieces (s.units.drop i)) j ≠ 0) →
        EndsInError s .unterminatedBlockComment (Text.ofString "/*") i)) ∧
    ∀ i ∈ (readings s).map (·.start.offset), s.units[i]? = some 0x22 →
      0x22 ∉ s.units.drop (i + 1) → EndsInError s .unterminatedString (s.slice i s.length) i := by
  refine ⟨fun i hi hpre => ?_, fun i hi hquote hnone => ?_⟩
  · obtain ⟨r, hr, rfl⟩ := List.mem_map.1 hi
    exact blockComment_of_mem_readings hr hpre
  · obtain ⟨r, hr, rfl⟩ := List.mem_map.1 hi
    exact unterminatedString_of_mem_readings hr hquote hnone

end ExprFront.Scan
