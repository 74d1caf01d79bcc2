import Mathlib.Data.Nat.Find
import Mathlib.Order.Bounds.Defs
import Mathlib.Tactic.Set
import ExprFront.Tree.Location
/-!
# The line lookup is a binary search

`LineTable.search` keeps a range `lo .. hi` of line indices and looks at its upper middle
`(lo + hi + 1) / 2`. That middle lies above `lo` and at most at `hi`, so whichever side is
kept, from the middle up or below it, is strictly shorter (`LineTable.search_step`). When the line
starts at or below the offset are, past `lo`, exactly those up to some `c` in the range, the
search ends at `c` (`LineTable.search_eq_of_between`).

The starts of a text increase from zero, so the starts at or below an offset always form such
a run. The lookup therefore finds the last line starting at or below the offset, or the first
line when none does, for every integer offset: negative ones and those past the end included.

Main statement (`LineTable.locate_ofText_last_start`).
-/

namespace ExprFront

namespace LineTable

variable {π : Type} [Coord π]

/-- One round of the search: the upper middle lies above `lo` and at most at `hi`, and the
search goes on from it up, or from `lo` up to just below it. Either range is strictly shorter. -/
theorem search_step (tbl : LineTable) (offset : π) {lo hi : Nat} (h : lo < hi) :
    lo < (lo + hi + 1) / 2 ∧ (lo + hi + 1) / 2 ≤ hi ∧
      (tbl.search offset lo hi = tbl.search offset ((lo + hi + 1) / 2) hi ∨
        tbl.search offset lo hi = tbl.search offset lo ((lo + hi + 1) / 2 - 1)) := by
  refine ⟨by omega, by omega, ?_⟩
  rw [search, if_pos h]
  dsimp only
  split
  · exact .inl rfl
  · exact .inr rfl

/-- When the starts at or below `offset`, among the indices past `lo` up to `hi`, are exactly
those up to `c`, the search of `lo .. hi` finds `c`. Nothing is asked of `lo` itself: the
search never looks at it. -/
theorem search_eq_of_between (tbl : LineTable) (offset : π) (c : Nat) {lo hi : Nat}
    (hc : ∀ j, lo < j → j ≤ hi → (Coord.countLe (tbl.startOf j) offset = true ↔ j ≤ c))
    (hlo : lo ≤ c) (hci : c ≤ hi) : tbl.search offset lo hi = c := by
  fun_induction tbl.search offset lo hi with
  | case1 lo hi hlt mid hmid ih =>
    have hle : mid ≤ c := (hc mid (by omega) (by omega)).1 hmid
    exact ih (fun j hj hji => hc j (by omega) hji) hle hci
  | case2 lo hi hlt mid hmid ih =>
    have hgt : c < mid := Nat.lt_of_not_le fun h => hmid ((hc mid (by omega) (by omega)).2 h)
    exact ih (fun j hj hji => hc j hj (by omega)) hlo (by omega)
  | case3 lo hi hlt => omega

/-! ## The starts of a text -/

theorem ofText_starts_toList (s : Text) :
    (ofText s).starts.toList =
      0 :: (s.units.zipIdx.filter (fun p => p.1 == 0x0A)).map (fun p => p.2 + 1) := rfl

theorem ofText_size_pos (s : Text) : 0 < (ofText s).starts.size := by
  rw [← Array.length_toList, ofText_starts_toList]
  simp

theorem ofText_startOf_zero (s : Text) : (ofText s).startOf 0 = 0 := rfl

/-- The starts of a text increase strictly: zero, then one past each line feed in order. -/
theorem ofText_starts_pairwise (s : Text) : (ofText s).starts.toList.Pairwise (· < ·) := by
  have hidx : (s.units.zipIdx.map Prod.snd).Pairwise (· < ·) := by
    rw [List.zipIdx_map_snd]
    exact List.pairwise_lt_range'
  rw [List.pairwise_map] at hidx
  rw [ofText_starts_toList, List.pairwise_cons]
  refine ⟨fun x hx => ?_, ?_⟩
  · obtain ⟨p, -, rfl⟩ := List.mem_map.1 hx
    omega
  · rw [List.pairwise_map]
    exact (hidx.filter _).imp fun h => by omega

theorem ofText_startOf_le (s : Text) {i j : Nat} (hij : i ≤ j) (hj : j < (ofText s).starts.size) :
    (ofText s).startOf i ≤ (ofText s).startOf j := by
  rcases Nat.lt_or_eq_of_le hij with hlt | rfl
  · have hpair := List.pairwise_iff_getElem.1 (ofText_starts_pairwise s) i j
      (by simp only [Array.length_toList]; omega) (by simpa using hj) hlt
    simp only [startOf, Array.getElem?_eq_getElem (by omega : i < (ofText s).starts.size),
      Array.getElem?_eq_getElem hj, Option.getD_some]
    simpa using Nat.le_of_lt hpair
  · exact le_rfl

/-! ## The line of an integer offset -/

/-- The line index of an integer offset is the last index up to the end of the table whose
start is at or below the offset, or zero. -/
theorem lineIndex_ofText_int (s : Text) (o : Int) :
    (ofText s).lineIndex o =
      Nat.findGreatest (fun j => ((ofText s).startOf j : Int) ≤ o)
        ((ofText s).starts.size - 1) := by
  set P := fun j => ((ofText s).startOf j : Int) ≤ o
  set c := Nat.findGreatest P ((ofText s).starts.size - 1)
  have hsize := ofText_size_pos s
  have hcle : c ≤ (ofText s).starts.size - 1 := Nat.findGreatest_le _
  -- below the last start at or before the offset every start is at or before it too
  have hthreshold : ∀ j, 0 < j → j ≤ (ofText s).starts.size - 1 →
      (Coord.countLe ((ofText s).startOf j) o = true ↔ j ≤ c) := by
    intro j hj hjn
    rw [Coord.countLe_int, decide_eq_true_iff]
    constructor
    · exact Nat.le_findGreatest (P := P) hjn
    · intro hjc
      have hc0 : c ≠ 0 := by omega
      have hPc : ((ofText s).startOf c : Int) ≤ o := Nat.findGreatest_of_ne_zero rfl hc0
      have hle : ((ofText s).startOf j : Int) ≤ (ofText s).startOf c := by
        exact_mod_cast ofText_startOf_le s hjc (by omega)
      exact Int.le_trans hle hPc
  exact search_eq_of_between _ o c hthreshold (Nat.zero_le c) hcle

/-- When some line starts at or below an integer offset, its line is the last of them. -/
theorem lineIndex_ofText_isGreatest (s : Text) (o : Int)
    (h : ∃ j < (ofText s).starts.size, ((ofText s).startOf j : Int) ≤ o) :
    IsGreatest {j | j < (ofText s).starts.size ∧ ((ofText s).startOf j : Int) ≤ o}
      ((ofText s).lineIndex o) := by
  obtain ⟨j, hj, hPj⟩ := h
  have hsize := ofText_size_pos s
  have hindex := lineIndex_ofText_int s o
  have hcle : (ofText s).lineIndex o ≤ (ofText s).starts.size - 1 :=
    hindex ▸ Nat.findGreatest_le _
  refine ⟨⟨by omega, ?_⟩, fun i ⟨hi, hPi⟩ => hindex ▸ Nat.le_findGreatest (by omega) hPi⟩
  -- the index found passes the test: it is positive, or it is zero and so is `j`
  by_cases hzero : (ofText s).lineIndex o = 0
  · have hj0 : j = 0 := by
      have := hindex ▸ Nat.le_findGreatest (P := fun j => ((ofText s).startOf j : Int) ≤ o)
        (show j ≤ (ofText s).starts.size - 1 by omega) hPj
      omega
    rw [hzero]
    exact hj0 ▸ hPj
  · rw [hindex] at hzero ⊢
    exact Nat.findGreatest_of_ne_zero rfl hzero

/-- When every line starts past an integer offset, the first line is taken. -/
theorem lineIndex_ofText_eq_zero (s : Text) (o : Int)
    (h : ∀ j < (ofText s).starts.size, o < (ofText s).startOf j) :
    (ofText s).lineIndex o = 0 := by
  rw [lineIndex_ofText_int, Nat.findGreatest_eq_zero_iff]
  intro n _ hn hPn
  exact absurd hPn (Int.not_le.2 (h n (by have := ofText_size_pos s; omega)))

/-- The lookup of an integer offset in the line table of a text: its line is one past the
index of the last line starting at or below the offset, and its column the distance from that
start; when every line starts past the offset (a negative offset), the first line is taken, and
the column is the offset itself. Each round of the search looks at the upper middle of its range,
which lies above the lower end and at most at the upper one, and goes on in a strictly shorter
range on one side of it. -/
theorem locate_ofText_last_start (s : Text) (o : Int) :
    (ofText s).locate o =
        ⟨(ofText s).lineIndex o + 1, o - (ofText s).startOf ((ofText s).lineIndex o)⟩ ∧
      ((∃ j < (ofText s).starts.size, ((ofText s).startOf j : Int) ≤ o) →
        IsGreatest {j | j < (ofText s).starts.size ∧ ((ofText s).startOf j : Int) ≤ o}
          ((ofText s).lineIndex o)) ∧
      ((∀ j < (ofText s).starts.size, o < (ofText s).startOf j) →
        (ofText s).lineIndex o = 0 ∧ (ofText s).locate o = ⟨1, o⟩) ∧
      ∀ lo hi, lo < hi → lo < (lo + hi + 1) / 2 ∧ (lo + hi + 1) / 2 ≤ hi ∧
        ((ofText s).search o lo hi = (ofText s).search o ((lo + hi + 1) / 2) hi ∨
          (ofText s).search o lo hi = (ofText s).search o lo ((lo + hi + 1) / 2 - 1)) := by
  have hlocate : (ofText s).locate o =
      ⟨(ofText s).lineIndex o + 1, o - (ofText s).startOf ((ofText s).lineIndex o)⟩ := rfl
  refine ⟨hlocate, lineIndex_ofText_isGreatest s o, fun hnone => ?_,
    fun lo hi h => search_step _ o h⟩
  have hzero := lineIndex_ofText_eq_zero s o hnone
  refine ⟨hzero, ?_⟩
  rw [hlocate, hzero, ofText_startOf_zero]
  simp

end LineTable

end ExprFront
