import ExprFront.Proofs.Parse.Spans
import ExprFront.Proofs.Parse.Language
import ExprFront.Proofs.Scan.Positions
import ExprFront.Tree.Json
import ExprFront.Source
import ExprFront.Proofs.Tree.LineSearch
/-!
# Node locations

A tree can be written with the location of every node: for each end of its span a line counted
from one and a column counted from zero. The line is found by a binary search over the offsets
where the lines of the text start. It finds the line the closed form gives, one more than the
line feeds before the offset, with the column counted from the last of them
(`LineTable.locate_ofText`). At the start of a node that is the line the scanner gave its first
token, and one column less, since the scanner counts columns from one.

Writing the locations changes nothing else: take every `loc` member out of a tree written with
them and what is left is the tree written without (`Expr.toJson_without_loc`).

Main statement (`toJson_locations`).
-/

namespace ExprFront

namespace LineTable

/-! ## The line starts of a text -/

/-- The line feeds of a list of units, as the offsets just past them. -/
theorem length_filter_zipIdx (us : List UInt16) (x : UInt16) (k : Nat) :
    ((us.zipIdx k).filter (fun p => p.1 == x)).length = us.count x := by
  induction us generalizing k with
  | nil => rfl
  | cons u us ih =>
    by_cases hu : u = x <;> simp [hu, ih]

/-- The ends of the line feeds before offset `o` come first, and all others lie past `o`. -/
theorem stops_split (us : List UInt16) (o : Nat) :
    ∃ late, (us.zipIdx.filter (fun p => p.1 == 0x0A)).map (fun p => p.2 + 1) =
        ((us.take o).zipIdx.filter (fun p => p.1 == 0x0A)).map (fun p => p.2 + 1) ++ late ∧
      ∀ x ∈ late, o < x := by
  refine ⟨(((us.drop o).zipIdx (us.take o).length).filter (fun p => p.1 == 0x0A)).map
    (fun p => p.2 + 1), ?_, ?_⟩
  · conv_lhs => rw [← List.take_append_drop o us]
    rw [List.zipIdx_append, List.filter_append, List.map_append, Nat.zero_add]
  · intro x hx
    obtain ⟨⟨u, i⟩, hmem, rfl⟩ := List.mem_map.1 hx
    have hbound := (List.mem_zipIdx (List.mem_of_mem_filter hmem)).2.1
    -- a unit after offset `o` exists only when the text is longer than `o`
    have hlen : (us.drop o).length ≠ 0 := by
      intro h0
      rw [List.length_eq_zero_iff.1 h0] at hmem
      simp at hmem
    have := List.mem_zipIdx (List.mem_of_mem_filter hmem)
    simp only [List.length_take, List.length_drop] at this hlen ⊢
    omega

theorem stops_take_le (us : List UInt16) (o : Nat) :
    ∀ x ∈ ((us.take o).zipIdx.filter (fun p => p.1 == 0x0A)).map (fun p => p.2 + 1), x ≤ o := by
  intro x hx
  obtain ⟨⟨u, i⟩, hmem, rfl⟩ := List.mem_map.1 hx
  have := (List.mem_zipIdx (List.mem_of_mem_filter hmem)).2.1
  simp only [List.length_take] at this
  omega

/-- The line of offset `o` in the table of a text: its index is the number of line feeds before
`o`, and it starts just past the last of them. -/
theorem ofText_lineIndex (s : Text) (o : Nat) :
    (ofText s).lineIndex o = (s.units.take o).count 0x0A ∧
      (ofText s).startOf ((s.units.take o).count 0x0A) =
        ((Text.lastIndexOf? ⟨s.units.take o⟩ 0x0A).map (· + 1)).getD 0 := by
  obtain ⟨late, hsplit, hlate⟩ := stops_split s.units o
  set early := ((s.units.take o).zipIdx.filter (fun p => p.1 == 0x0A)).map (fun p => p.2 + 1)
    with hearly
  have hcount : early.length = (s.units.take o).count 0x0A := by
    rw [hearly, List.length_map, length_filter_zipIdx]
  have hstarts : (ofText s).starts = (0 :: (early ++ late)).toArray := by
    rw [← hsplit]
    rfl
  have hstart : ∀ j, (ofText s).startOf j = ((0 :: (early ++ late))[j]?).getD 0 := by
    intro j
    simp [startOf, hstarts]
  have hsize : (ofText s).starts.size = early.length + late.length + 1 := by
    simp [hstarts]
  have hlast : (ofText s).startOf early.length = (early.getLast?).getD 0 := by
    rw [hstart, ← List.cons_append, List.getElem?_append_left (by simp)]
    have : (0 :: early).getLast? = (0 :: early)[(0 :: early).length - 1]? :=
      List.getLast?_eq_getElem?
    simp only [List.length_cons, Nat.add_sub_cancel] at this
    rw [← this, List.getLast?_cons]
    rfl
  -- the starts at or below `o` are those of the line feeds before it, and the first line's
  have hthreshold : ∀ j, j < (ofText s).starts.size →
      ((ofText s).startOf j ≤ o ↔ j ≤ early.length) := by
    intro j hj
    rw [hstart]
    cases j with
    | zero => simp
    | succ i =>
      rw [List.getElem?_cons_succ]
      by_cases hi : i < early.length
      · rw [List.getElem?_append_left hi]
        have := stops_take_le s.units o early[i] (List.getElem_mem hi)
        simp only [List.getElem?_eq_getElem hi, Option.getD_some]
        omega
      · rw [List.getElem?_append_right (by omega)]
        have hi' : i - early.length < late.length := by rw [hsize] at hj; omega
        have := hlate late[i - early.length] (List.getElem_mem hi')
        simp only [List.getElem?_eq_getElem hi', Option.getD_some]
        omega
  have hindex : (ofText s).lineIndex o = early.length :=
    search_eq_of_between _ o _ (fun j _ hj => by simpa using hthreshold j (by omega))
      (Nat.zero_le _) (by rw [hsize]; omega)
  refine ⟨hindex.trans hcount, ?_⟩
  rw [← hcount, hlast, hearly, List.getLast?_map, Text.lastIndexOf?, Option.map_map]
  rfl

/-- Binary search over the line starts of a text locates an offset on the line one more than the
line feeds before it, at the distance from the last of them, or from the start of the text. -/
theorem locate_ofText (s : Text) (o : Nat) :
    (ofText s).locate o = ⟨s.lineAt o, s.columnAt o - 1⟩ := by
  obtain ⟨hindex, hstart⟩ := ofText_lineIndex s o
  simp only [locate, hindex, hstart, Coord.subCount_nat, Text.lineAt, Text.columnAt,
    Text.slice_zero, Text.count, Location.mk.injEq]
  refine ⟨Nat.add_comm _ _, ?_⟩
  cases Text.lastIndexOf? ⟨s.units.take o⟩ 0x0A with
  | none => simp
  | some k => simp only [Option.map_some, Option.getD_some]; omega

end LineTable

/-! ## The `loc` members -/

namespace Json

mutual

/-- The document without the members named `key`, at every depth. -/
def without (key : String) : Json → Json
  | .arr items => .arr (withoutItems key items)
  | .obj fields => .obj (withoutFields key fields)
  | j => j

/-- The items of an array without the members named `key`. -/
def withoutItems (key : String) : List Json → List Json
  | [] => []
  | j :: js => without key j :: withoutItems key js

/-- The members of an object without those named `key`, and their values without them. -/
def withoutFields (key : String) : List (String × Json) → List (String × Json)
  | [] => []
  | (k, j) :: fs =>
    if k = key then withoutFields key fs else (k, without key j) :: withoutFields key fs

end

end Json

theorem Literal.toJson_without (v : Literal) (key : String) : v.toJson.without key = v.toJson := by
  cases v <;> rfl

theorem Token.toJson_without (style : KindStyle) (t : Token Nat) :
    (t.toJson style).without "loc" = t.toJson style := by
  have hkind : (style.kind t.kind).without "loc" = style.kind t.kind := by
    cases style <;> rfl
  unfold Token.toJson
  cases t.literal with
  | none => simp [Json.without, Json.withoutFields, hkind, Coord.toJson]
  | some v => simp [Json.without, Json.withoutFields, hkind, Coord.toJson, Literal.toJson_without]

namespace Expr

/-- Written with locations, every node ends with its `loc` member. -/
theorem toJson_some {π : Type} [Coord π] (style : KindStyle) (tbl : LineTable) (e : Expr π) :
    ∃ fields, e.toJson style (some tbl) = .obj (fields ++
      [("loc", .obj [("start", (tbl.locate e.span.start).toJson),
        ("end", (tbl.locate e.span.stop).toJson)])]) := by
  cases e <;> exact ⟨_, rfl⟩

/-- Taking the `loc` members out of a tree written with locations gives the tree written
without them. -/
theorem toJson_without_loc (style : KindStyle) (tbl : LineTable) (e : Expr Nat) :
    (e.toJson style (some tbl)).without "loc" = e.toJson style none := by
  induction e with
  | literal v s =>
    simp [toJson, locField, Json.without, Json.withoutFields, Literal.toJson_without,
      Coord.toJson]
  | grouping inner s ih =>
    simp [toJson, locField, Json.without, Json.withoutFields, Coord.toJson, ih]
  | unary op operand ih =>
    simp [toJson, locField, Json.without, Json.withoutFields, Coord.toJson,
      Token.toJson_without, ih]
  | binary l op r ihl ihr =>
    simp [toJson, locField, Json.without, Json.withoutFields, Coord.toJson,
      Token.toJson_without, ihl, ihr]
  | condition c t f ihc iht ihf =>
    simp [toJson, locField, Json.without, Json.withoutFields, Coord.toJson, ihc, iht, ihf]

end Expr

open Sentence

/-- The tree of a text, written with locations, is the tree written without them plus a `loc`
member on every node: for each end of its span, the line one more than the line feeds before
that offset, and the column counted from zero after the last of them. At the start of a node
that is the line the scanner gave the token the node starts with, and one column less. -/
theorem toJson_locations (s : Text) (style : KindStyle) {e : Expr Nat}
    (he : (parseSource s).result = some (.ok e)) :
    (e.toJson style (some (LineTable.ofText s))).without "loc" = e.toJson style none ∧
      ∀ n ∈ e.nodes,
        (∃ fields, n.toJson style (some (LineTable.ofText s)) = .obj (fields ++
          [("loc", .obj
            [("start", Location.toJson ⟨s.lineAt n.span.start, s.columnAt n.span.start - 1⟩),
              ("end", Location.toJson ⟨s.lineAt n.span.stop, s.columnAt n.span.stop - 1⟩)])])) ∧
        ∃ t ∈ (Scan.scan s).tokens, t.start = n.span.start ∧
          (⟨s.lineAt n.span.start, s.columnAt n.span.start - 1⟩ : Location Nat) =
            ⟨t.line, t.column - 1⟩ := by
  refine ⟨Expr.toJson_without_loc style _ e, fun n hn => ⟨?_, ?_⟩⟩
  · simpa only [LineTable.locate_ofText] using Expr.toJson_some style (LineTable.ofText s) n
  · -- the tree is derived from the readable tokens of the scan
    have hparse : parseTokens (Scan.scan s).tokens = .ok e := by
      simp only [parseSource] at he
      split at he
      · exact Option.some.inj he
      · cases he
    obtain ⟨k, -, hderiv, -⟩ := (parseTokens_eq_ok_iff _ e).1 hparse
    obtain ⟨t, ht, hstart⟩ := hderiv.startsAt n hn
    have hmem : t ∈ (Scan.scan s).tokens :=
      List.mem_of_mem_filter ((List.takeWhile_prefix _).subset ht)
    obtain ⟨hline, hcolumn⟩ := (Scan.scan_positions s).1 t hmem
    exact ⟨t, hmem, hstart, by rw [hline, hcolumn, hstart]⟩

/-- A string that spans a line feed, then `+ -(2)`: a sum whose right operand nests a prefix
minus, a grouping and a literal, every node but the first starting on the second line. -/
theorem toJson_locations_after_string :
    ∃ e : Expr Nat, (parseSource (Text.ofString "\"a\nb\" + -(2)")).result = some (.ok e) ∧
      e.nodes.length = 5 ∧
      (e.toJson .names (some (LineTable.ofText (Text.ofString "\"a\nb\" + -(2)")))).without "loc" =
        e.toJson .names none ∧
      ∀ n ∈ e.nodes,
        (∃ fields, n.toJson .names (some (LineTable.ofText (Text.ofString "\"a\nb\" + -(2)"))) =
          .obj (fields ++
          [("loc", .obj
            [("start", Location.toJson ⟨(Text.ofString "\"a\nb\" + -(2)").lineAt n.span.start,
                (Text.ofString "\"a\nb\" + -(2)").columnAt n.span.start - 1⟩),
              ("end", Location.toJson ⟨(Text.ofString "\"a\nb\" + -(2)").lineAt n.span.stop,
                (Text.ofString "\"a\nb\" + -(2)").columnAt n.span.stop - 1⟩)])])) ∧
        ∃ t ∈ (Scan.scan (Text.ofString "\"a\nb\" + -(2)")).tokens, t.start = n.span.start ∧
          (⟨(Text.ofString "\"a\nb\" + -(2)").lineAt n.span.start,
              (Text.ofString "\"a\nb\" + -(2)").columnAt n.span.start - 1⟩ : Location Nat) =
            ⟨t.line, t.column - 1⟩ := by
  have he : (parseSource (Text.ofString "\"a\nb\" + -(2)")).result = some (.ok
      (.binary (.literal (.string ⟨[0x61, 0x0A, 0x62]⟩) ⟨0, 5⟩)
        ⟨.plus, ⟨[0x2B]⟩, none, 2, 4, 6, 7⟩
        (.unary ⟨.minus, ⟨[0x2D]⟩, none, 2, 6, 8, 9⟩
          (.grouping (.literal (.number (Scan.numberValue [0x32])) ⟨10, 11⟩) ⟨9, 12⟩)))) := by
    decide +kernel
  exact ⟨_, he, rfl, toJson_locations _ .names he⟩

end ExprFront
