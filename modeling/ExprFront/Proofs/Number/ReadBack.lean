import ExprFront.Proofs.Number.PlainNotation
import ExprFront.Proofs.Source.Reprint
/-!
# Values in the plain range read back

Zero and every finite value from `1e-6` up to but not including `1e21` are written in plain
notation and read back as themselves (`Binary64.readsBack_of_inPlainRange`). The shortest decimal
of a positive normal value lies in its rounding interval, so the scanner rounds it back to the
value; at the two ends of the range the intervals of `1e-6` and `1e21` keep that decimal from
`10^-6` up to `10^21`, where it is written without an exponent. A parsed tree whose literals are
booleans, nil and such numbers therefore renders to a text that parses back into the same tree
(`render_reparses_plain`).
-/

namespace ExprFront

namespace Binary64

open Scan

variable {x : Binary64}

theorem PosNormal.isFinite (hx : x.PosNormal) : x.isFinite = true := by
  have := hx.finite
  simp only [Binary64.isFinite, bne_iff_ne, ne_eq]
  omega

/-- A positive normal value is written as its shortest decimal. -/
theorem PosNormal.toText_eq (hx : x.PosNormal) : x.toText = Text.ofString x.shortest.layout := by
  have hzero : x.isZero = false := by
    have := hx.pos
    simp only [Binary64.isZero, Bool.and_eq_false_iff, beq_eq_false_iff_ne, ne_eq]
    omega
  simp [toText, hx.isFinite, hzero, hx.sign]

/-- Digits `m` scaled by `10^e`, in the range where the scanner forms their ratio, are read as
`x` when their value lies in the rounding interval of `x`. -/
theorem ofScientific_eq_of_contains (hx : x.PosNormal) {m : Nat} {e : Int} (hm : 0 < m)
    (he : e ≤ 309) (hlog : -e < (m.log2 : Int) + 1076)
    (h : x.interval.Contains (m * 10 ^ e)) : ofScientific m e = x := by
  unfold ofScientific
  rw [if_neg hm.ne', if_neg (by omega), if_neg (by omega)]
  split
  · rename_i he0
    apply ofRatio_eq_of_contains hx (Nat.mul_pos hm (Nat.pow_pos (by norm_num))) one_pos
    convert h using 1
    push_cast
    rw [div_one, ← zpow_natCast, Int.toNat_of_nonneg he0]
  · rename_i he0
    apply ofRatio_eq_of_contains hx hm (Nat.pow_pos (by norm_num))
    convert h using 1
    push_cast
    rw [← zpow_natCast, Int.toNat_of_nonneg (by omega), div_eq_mul_inv, ← zpow_neg, neg_neg]

/-- A positive normal value whose shortest decimal lies from `10^-6` up to `10^21` is written in
plain notation, and the scanner reads that text back as the value. -/
theorem PosNormal.readsBack (hx : x.PosNormal) (hlow : (10 : ℚ) ^ (-6 : Int) ≤ x.shortest.toRat)
    (hhigh : x.shortest.toRat < 10 ^ (21 : Int)) : x.ReadsBack := by
  have hc : 0 < x.shortest.digits := by
    by_contra h0
    rw [Decimal.toRat, show x.shortest.digits = 0 by omega, Nat.cast_zero, zero_mul] at hlow
    exact absurd hlow (not_le.2 (zpow_pos (by norm_num) _))
  obtain ⟨hb1, hb2⟩ := Decimal.toRat_bounds hc
  have hs1 : -6 < x.shortest.scale :=
    (zpow_lt_zpow_iff_right₀ (by norm_num : (1 : ℚ) < 10)).1 (lt_of_le_of_lt hlow hb2)
  have hs2 : x.shortest.scale - 1 < 21 :=
    (zpow_lt_zpow_iff_right₀ (by norm_num : (1 : ℚ) < 10)).1 (lt_of_le_of_lt hb1 hhigh)
  obtain ⟨hnum, m, e, hme, hm, he, hlog, hval⟩ := Decimal.layout_numeral hc hs1 (by omega)
  rw [ReadsBack, hx.toText_eq]
  refine ⟨hnum, hval.trans (ofScientific_eq_of_contains hx hm he hlog ?_)⟩
  rw [hme]
  exact hx.shortest_contains

/-- Zero, or a finite value from `1e-6` up to but not including `1e21`: the values written with
no exponent. The lower end is the value nearest `10^-6`, a little below it. -/
def InPlainRange (x : Binary64) : Prop :=
  x = zero ∨ x.isFinite = true ∧ (ofScientific 1 (-6)).toRat ≤ x.toRat ∧
    x.toRat < (ofScientific 1 21).toRat

instance : DecidablePred InPlainRange := fun _ => inferInstanceAs (Decidable (_ ∨ _))

/-- From `1e-6` up, the shortest decimal is at least `10^-6`: at `1e-6` it is `10^-6` itself,
and above it the rounding interval starts where that of `1e-6` ends, past `10^-6`. -/
theorem PosNormal.ten_zpow_neg_six_le_shortest (hx : x.PosNormal)
    (h : (ofScientific 1 (-6)).toRat ≤ x.toRat) : (10 : ℚ) ^ (-6 : Int) ≤ x.shortest.toRat := by
  have hd : (ofScientific 1 (-6)).PosNormal :=
    ⟨by decide +kernel, by decide +kernel, by decide +kernel⟩
  rcases h.lt_or_eq with hlt | heq
  · have hten : (ofScientific 1 (-6)).interval.Contains ((1 : Nat) * 10 ^ (-6 : Int)) :=
      (Interval.admits_iff (interval_den_pos _) 1 (-6)).1 (by decide +kernel)
    calc (10 : ℚ) ^ (-6 : Int) ≤ _ := by simpa using hten.le_high
      _ ≤ _ := hd.high_le_low hx hlt
      _ ≤ x.shortest.toRat := hx.shortest_contains.low_le
  · have hshort : (ofScientific 1 (-6)).shortest = ⟨1, -6⟩ := by decide +kernel
    rw [← hd.eq_of_toRat_eq hx heq, hshort]
    simp [Decimal.toRat]

/-- Below `1e21`, which is `10^21`, the shortest decimal is below `10^21`: the rounding interval
ends where that of `1e21` starts, below `10^21`. -/
theorem PosNormal.shortest_lt_ten_zpow_21 (hx : x.PosNormal)
    (h : x.toRat < (ofScientific 1 21).toRat) : x.shortest.toRat < 10 ^ (21 : Int) := by
  have ht : (ofScientific 1 21).PosNormal :=
    ⟨by decide +kernel, by decide +kernel, by decide +kernel⟩
  calc x.shortest.toRat ≤ _ := hx.shortest_contains.le_high
    _ ≤ _ := hx.high_le_low ht h
    _ < (ofScientific 1 21).toRat := ht.low_lt_toRat
    _ = 10 ^ (21 : Int) := by decide +kernel

/-- A value in the plain range is written as a numeral that reads back as itself. -/
theorem readsBack_of_inPlainRange (h : x.InPlainRange) : x.ReadsBack := by
  rcases h with rfl | ⟨hfin, hlo, hhi⟩
  · exact readsBack_zero
  · have hnormal : (2 : ℚ) ^ (-1022 : Int) ≤ (ofScientific 1 (-6)).toRat := by decide +kernel
    have hx : x.PosNormal := posNormal_of_le_toRat hfin (le_trans hnormal hlo)
    exact hx.readsBack (hx.ten_zpow_neg_six_le_shortest hlo) (hx.shortest_lt_ten_zpow_21 hhi)

end Binary64

namespace Literal

/-- A literal written in plain form: a boolean, nil, or a number in the plain range. A string
never is, as it is written without its quotes. -/
def InPlainRange : Literal → Prop
  | .number x => x.InPlainRange
  | .string _ => False
  | .bool _ => True
  | .nil => True

instance : DecidablePred InPlainRange := fun v => by
  cases v <;> unfold InPlainRange <;> infer_instance

theorem readsBack_of_inPlainRange {v : Literal} (h : v.InPlainRange) : v.ReadsBack := by
  cases v with
  | number x => exact Binary64.readsBack_of_inPlainRange h
  | string _ => exact h.elim
  | bool _ => trivial
  | nil => trivial

end Literal

/-- Render a parsed tree and read it back, for a tree whose literals are booleans, nil, zero and
numbers from `1e-6` up to but not including `1e21`: the rendering scans without error and parses
into the same tree, positions aside. -/
theorem render_reparses_plain (s : Text) (e : Expr Nat) (he : (parseSource s).result = some (.ok e))
    (hlit : ∀ v ∈ e.literals, v.InPlainRange) :
    (parseSource e.render).errors = [] ∧
      ∃ e', (parseSource e.render).result = some (.ok e') ∧ e'.strip = e.strip :=
  render_reparses s e he fun v hv => Literal.readsBack_of_inPlainRange (hlit v hv)

/-- `-(0.5 - 2) * 100 != true`: fractions and whole numbers under a prefix minus, a grouping
and two binary levels read back. -/
theorem render_reparses_fractions :
    ∃ e, (parseSource (Text.ofString "-(0.5 - 2) * 100 != true")).result = some (.ok e) ∧
      (∀ v ∈ e.literals, v.InPlainRange) ∧ (parseSource e.render).errors = [] ∧
      ∃ e', (parseSource e.render).result = some (.ok e') ∧ e'.strip = e.strip := by
  have he : (parseSource (Text.ofString "-(0.5 - 2) * 100 != true")).result = some (.ok
      (.binary
        (.binary
          (.unary ⟨.minus, ⟨[0x2D]⟩, none, 1, 1, 0, 1⟩
            (.grouping
              (.binary (.literal (.number (Scan.numberValue [0x30, 0x2E, 0x35])) ⟨2, 5⟩)
                ⟨.minus, ⟨[0x2D]⟩, none, 1, 7, 6, 7⟩
                (.literal (.number (Scan.numberValue [0x32])) ⟨8, 9⟩))
              ⟨1, 10⟩))
          ⟨.star, ⟨[0x2A]⟩, none, 1, 12, 11, 12⟩
          (.literal (.number (Scan.numberValue [0x31, 0x30, 0x30])) ⟨13, 16⟩))
        ⟨.bangEqual, ⟨[0x21, 0x3D]⟩, none, 1, 18, 17, 19⟩
        (.literal (.bool true) ⟨20, 24⟩))) := by
    decide +kernel
  refine ⟨_, he, ?literals, render_reparses_plain _ _ he ?literals⟩
  decide +kernel

end ExprFront
