import ExprFront.Proofs.Number.ShortestDecimal
import ExprFront.Proofs.Scan.Pieces
import ExprFront.Number.Notation
/-!
# Plain decimal notation is a numeral of its own value

Between `10^-6` and `10^21` a decimal is written without an exponent (`Decimal.layout`): its
digits followed by zeros, its digits with a point among them, or `0.`, zeros and its digits. Each
of the three is a numeral to the scanner, and the scanner's value of it is the rounding of the
decimal's own value from digits and an exponent it can divide out (`Decimal.layout_numeral`).

The digits come from `Nat.repr`: one unit for each decimal digit, read back as the number
(`Scan.toDigits_ten`). `Scan.Digits` gathers what the three layouts need of them.
-/

namespace ExprFront

namespace Text

/-- The unit of a character below `U+10000`, which a text holds as one unit. -/
def unitOf (ch : Char) : UInt16 := ch.toNat.toUInt16

theorem units_ofList {l : List Char} (h : ∀ ch ∈ l, ch.toNat < 0x10000) :
    (Text.ofString (String.ofList l)).units = l.map unitOf := by
  simp only [Text.ofString, String.toList_ofList]
  induction l with
  | nil => rfl
  | cons ch l ih =>
    rw [List.flatMap_cons, List.map_cons, ih fun c hc => h c (List.mem_cons_of_mem ch hc)]
    simp [Text.unitsOfChar, unitOf, h ch List.mem_cons_self]

theorem ofString_append (a b : String) :
    Text.ofString (a ++ b) = Text.ofString a ++ Text.ofString b := by
  simp only [Text.ofString, String.toList_append, List.flatMap_append]
  rfl

theorem zeros_toNat_lt (j : Nat) : ∀ ch ∈ List.replicate j '0', ch.toNat < 0x10000 := by
  intro ch hch
  rw [List.eq_of_mem_replicate hch]
  decide

/-- Digits, then zeros: the text of a whole number. -/
theorem units_zeros_after {cs : List Char} (h : ∀ ch ∈ cs, ch.toNat < 0x10000) (j : Nat) :
    (ofString (String.ofList cs ++ String.ofList (List.replicate j '0'))).units =
      cs.map unitOf ++ List.replicate j 0x30 := by
  rw [ofString_append, units_append, units_ofList h, units_ofList (zeros_toNat_lt j),
    List.map_replicate]
  rfl

/-- A point after the first `n` digits. -/
theorem units_point_among {cs : List Char} (h : ∀ ch ∈ cs, ch.toNat < 0x10000) (n : Nat) :
    (ofString (String.ofList (cs.take n) ++ "." ++ String.ofList (cs.drop n))).units =
      (cs.map unitOf).take n ++ 0x2E :: (cs.map unitOf).drop n := by
  rw [ofString_append, ofString_append, units_append, units_append,
    units_ofList fun ch hch => h ch (List.mem_of_mem_take hch),
    units_ofList fun ch hch => h ch (List.mem_of_mem_drop hch),
    show (ofString ".").units = [0x2E] by decide, List.map_take, List.map_drop,
    List.append_assoc, List.singleton_append]

/-- `0.`, zeros, then the digits: the text of a number below one. -/
theorem units_zeros_before {cs : List Char} (h : ∀ ch ∈ cs, ch.toNat < 0x10000) (j : Nat) :
    (ofString ("0." ++ String.ofList (List.replicate j '0') ++ String.ofList cs)).units =
      0x30 :: 0x2E :: (List.replicate j 0x30 ++ cs.map unitOf) := by
  rw [ofString_append, ofString_append, units_append, units_append,
    units_ofList (zeros_toNat_lt j), units_ofList h,
    show (ofString "0.").units = [0x30, 0x2E] by decide, List.map_replicate, List.append_assoc]
  rfl

end Text

namespace Scan

open Text

/-- One step of `digitsValue`: a point is passed over, a digit appended. -/
def digitStep (acc : Nat) (d : UInt16) : Nat :=
  if d == 0x2E then acc else acc * 10 + (d.toNat - 0x30)

theorem digitsValue_eq_foldl (ds : List UInt16) : digitsValue ds = ds.foldl digitStep 0 := rfl

theorem foldl_digitStep_zeros (acc j : Nat) :
    (List.replicate j (0x30 : UInt16)).foldl digitStep acc = acc * 10 ^ j := by
  induction j generalizing acc with
  | zero => simp
  | succ j ih =>
    rw [List.replicate_succ, List.foldl_cons, ih, pow_succ']
    simp [digitStep, Nat.mul_assoc]

/-- A numeral without a point has no fraction digits. -/
theorem numberValue_of_whole {ds : List UInt16} (h : ∀ u ∈ ds, u ≠ 0x2E) :
    numberValue ds = Binary64.ofScientific (digitsValue ds) 0 := by
  have hdrop : ds.dropWhile (· != 0x2E) = [] :=
    List.dropWhile_eq_nil_iff.2 fun u hu => by simpa using h u hu
  simp [numberValue, hdrop]

/-- After the point come the fraction digits; the point itself adds no digit to the value. -/
theorem numberValue_of_point {whole fraction : List UInt16} (h : ∀ u ∈ whole, u ≠ 0x2E) :
    numberValue (whole ++ 0x2E :: fraction) =
      Binary64.ofScientific (digitsValue (whole ++ fraction)) (-(fraction.length : Int)) := by
  have hdrop : whole.dropWhile (· != 0x2E) = [] :=
    List.dropWhile_eq_nil_iff.2 fun u hu => by simpa using h u hu
  have hvalue : digitsValue (whole ++ 0x2E :: fraction) = digitsValue (whole ++ fraction) := by
    simp [digitsValue_eq_foldl, List.foldl_append, digitStep]
  simp [numberValue, List.dropWhile_append, hdrop, hvalue]

/-- A decimal digit character is one digit unit, standing for its own value. -/
theorem digitChar_unit : ∀ d < 10, (Nat.digitChar d).toNat < 0x10000 ∧
    isDigit (unitOf (Nat.digitChar d)) = true ∧ unitOf (Nat.digitChar d) ≠ 0x2E ∧
    (unitOf (Nat.digitChar d)).toNat - 0x30 = d := by
  decide

/-- The decimal digits of `c`: digit characters whose units read back as `c`, as many of them
as the powers of ten below `c` call for. -/
theorem toDigits_ten (c : Nat) :
    (∀ ch ∈ Nat.toDigits 10 c, ∃ d < 10, ch = Nat.digitChar d) ∧
      (∀ acc, ((Nat.toDigits 10 c).map unitOf).foldl digitStep acc =
        acc * 10 ^ (Nat.toDigits 10 c).length + c) ∧
      (0 < c → 10 ^ ((Nat.toDigits 10 c).length - 1) ≤ c) ∧
      c < 10 ^ (Nat.toDigits 10 c).length := by
  induction c using Nat.strongRecOn with
  | ind c ih =>
    rcases Nat.lt_or_ge c 10 with hc | hc
    · obtain ⟨-, -, hne, hval⟩ := digitChar_unit c hc
      rw [Nat.toDigits_of_lt_base hc]
      refine ⟨fun ch hch => ⟨c, hc, List.mem_singleton.1 hch⟩, fun acc => ?_,
        fun h => by simpa using Nat.succ_le_of_lt h, by simpa using hc⟩
      simp [digitStep, hne, hval]
    · -- the digits of `c / 10`, then the last digit `c % 10`
      have hlast : c % 10 < 10 := Nat.mod_lt c (by norm_num)
      have hsplit : Nat.toDigits 10 c = Nat.toDigits 10 (c / 10) ++ [Nat.digitChar (c % 10)] := by
        rw [← Nat.toDigits_of_lt_base hlast,
          Nat.toDigits_append_toDigits (by norm_num) (by omega) hlast, Nat.div_add_mod]
      obtain ⟨ih1, ih2, ih3, ih4⟩ := ih (c / 10) (by omega)
      obtain ⟨-, -, hne, hval⟩ := digitChar_unit (c % 10) hlast
      have hlen : 1 ≤ (Nat.toDigits 10 (c / 10)).length := by
        by_contra h0
        simp only [not_le, Nat.lt_one_iff] at h0
        rw [h0] at ih4
        omega
      have hdiv := Nat.div_add_mod c 10
      rw [hsplit, List.length_append, List.length_singleton]
      refine ⟨?_, fun acc => ?_, fun _ => ?_, ?_⟩
      · intro ch hch
        rcases List.mem_append.1 hch with hch | hch
        · exact ih1 ch hch
        · exact ⟨c % 10, hlast, List.mem_singleton.1 hch⟩
      · rw [List.map_append, List.foldl_append, ih2 acc, pow_succ, ← Nat.mul_assoc]
        simp [digitStep, hne, hval]
        omega
      · have := ih3 (by omega)
        rw [Nat.add_sub_cancel, ← Nat.sub_add_cancel hlen, pow_succ]
        omega
      · rw [pow_succ]
        omega

/-- Units that are all digits and read as the number `c`, after whatever was read before. -/
structure Digits (us : List UInt16) (c : Nat) : Prop where
  digit : ∀ u ∈ us, isDigit u = true
  ne_nil : us ≠ []
  fold : ∀ acc, us.foldl digitStep acc = acc * 10 ^ us.length + c

theorem ne_point_of_isDigit {u : UInt16} (h : isDigit u = true) : u ≠ 0x2E := by
  rintro rfl
  exact absurd h (by decide)

theorem zeros_digit (j : Nat) : ∀ u ∈ List.replicate j (0x30 : UInt16), isDigit u = true := by
  intro u hu
  rw [List.eq_of_mem_replicate hu]
  decide

/-- The units of the decimal digits of a positive number. -/
theorem digits_toDigits {c : Nat} (hc : 0 < c) : Digits ((Nat.toDigits 10 c).map unitOf) c := by
  obtain ⟨hchars, hfold, -, hhigh⟩ := toDigits_ten c
  refine ⟨fun u hu => ?_, fun h0 => ?_, by simpa using hfold⟩
  · obtain ⟨ch, hch, rfl⟩ := List.mem_map.1 hu
    obtain ⟨i, hi, rfl⟩ := hchars ch hch
    exact (digitChar_unit i hi).2.1
  · rw [List.map_eq_nil_iff] at h0
    rw [h0] at hhigh
    simp at hhigh
    omega

namespace Digits

variable {us : List UInt16} {c : Nat}

/-- Digits, then zeros: a whole number. -/
theorem numberValue_zeros (h : Digits us c) (j : Nat) :
    IsNumeral (us ++ List.replicate j 0x30) ∧
      numberValue (us ++ List.replicate j 0x30) = Binary64.ofScientific (c * 10 ^ j) 0 := by
  have hdigit : ∀ u ∈ us ++ List.replicate j 0x30, isDigit u = true := by
    intro u hu
    rcases List.mem_append.1 hu with hu | hu
    · exact h.digit u hu
    · exact zeros_digit j u hu
  refine ⟨⟨_, [], (List.append_nil _).symm, List.append_ne_nil_of_left_ne_nil h.ne_nil _, hdigit,
    .inl rfl⟩, ?_⟩
  rw [numberValue_of_whole fun u hu => ne_point_of_isDigit (hdigit u hu), digitsValue_eq_foldl,
    List.foldl_append, h.fold, foldl_digitStep_zeros]
  simp

/-- A point among the digits: the digits after it are the fraction. -/
theorem numberValue_point (h : Digits us c) {n : Nat} (hn : 0 < n) (hnk : n < us.length) :
    IsNumeral (us.take n ++ 0x2E :: us.drop n) ∧
      numberValue (us.take n ++ 0x2E :: us.drop n) =
        Binary64.ofScientific c (-((us.length - n : Nat) : Int)) := by
  refine ⟨⟨us.take n, 0x2E :: us.drop n, rfl, ?_, fun u hu => h.digit u (List.mem_of_mem_take hu),
    .inr ⟨us.drop n, rfl, ?_, fun u hu => h.digit u (List.mem_of_mem_drop hu)⟩⟩, ?_⟩
  · simp only [ne_eq, List.take_eq_nil_iff, not_or]
    exact ⟨by omega, h.ne_nil⟩
  · simp only [ne_eq, List.drop_eq_nil_iff]
    omega
  · rw [numberValue_of_point fun u hu =>
        ne_point_of_isDigit (h.digit u (List.mem_of_mem_take hu)),
      List.take_append_drop, List.length_drop, digitsValue_eq_foldl, h.fold]
    simp

/-- A zero, the point, zeros, then the digits: a number below one. -/
theorem numberValue_leading_zero (h : Digits us c) (j : Nat) :
    IsNumeral (0x30 :: 0x2E :: (List.replicate j 0x30 ++ us)) ∧
      numberValue (0x30 :: 0x2E :: (List.replicate j 0x30 ++ us)) =
        Binary64.ofScientific c (-((j + us.length : Nat) : Int)) := by
  have hfraction : ∀ u ∈ List.replicate j 0x30 ++ us, isDigit u = true := by
    intro u hu
    rcases List.mem_append.1 hu with hu | hu
    · exact zeros_digit j u hu
    · exact h.digit u hu
  refine ⟨⟨[0x30], 0x2E :: (List.replicate j 0x30 ++ us), rfl, by simp,
    List.forall_mem_singleton.2 (by decide), .inr ⟨_, rfl, by simp [h.ne_nil], hfraction⟩⟩, ?_⟩
  rw [← List.singleton_append, numberValue_of_point (List.forall_mem_singleton.2 (by decide)),
    digitsValue_eq_foldl,
    List.singleton_append, List.foldl_cons, List.foldl_append, foldl_digitStep_zeros, h.fold]
  simp [digitStep]

end Digits

end Scan

namespace Decimal

open Scan Text

/-- Where the point stands against the digits: a positive decimal lies from `10^(scale-1)` up to
`10^scale`. -/
def scale (d : Decimal) : Int := ((Nat.repr d.digits).length : Int) + d.exponent

theorem repr_length (c : Nat) : (Nat.repr c).length = (Nat.toDigits 10 c).length := by
  simp [Nat.repr]

theorem toRat_bounds {d : Decimal} (hc : 0 < d.digits) :
    (10 : ℚ) ^ (d.scale - 1) ≤ d.toRat ∧ d.toRat < 10 ^ d.scale := by
  obtain ⟨-, -, hlow, hhigh⟩ := toDigits_ten d.digits
  have hk : 0 < (Nat.toDigits 10 d.digits).length := by
    simpa using List.length_pos_of_ne_nil (digits_toDigits hc).ne_nil
  have h1 : (10 : ℚ) ^ (((Nat.toDigits 10 d.digits).length : Int) - 1) ≤ d.digits := by
    rw [Binary64.ten_zpow_sub_one hk]
    exact_mod_cast hlow hc
  have h2 : (d.digits : ℚ) < 10 ^ ((Nat.toDigits 10 d.digits).length : Int) := by
    rw [zpow_natCast]
    exact_mod_cast hhigh
  unfold scale toRat
  rw [repr_length]
  constructor
  · rw [show ((Nat.toDigits 10 d.digits).length : Int) + d.exponent - 1 =
      ((Nat.toDigits 10 d.digits).length : Int) - 1 + d.exponent by ring, zpow_add₀ (by norm_num)]
    exact mul_le_mul_of_nonneg_right h1 (zpow_nonneg (by norm_num) _)
  · rw [zpow_add₀ (by norm_num)]
    exact mul_lt_mul_of_pos_right h2 (zpow_pos (by norm_num) _)

/-- In plain notation the text of a positive decimal is a numeral, and the scanner's value of it
is the rounding of the decimal's own value, formed from digits and an exponent in the range where
the scanner divides them out. -/
theorem layout_numeral {d : Decimal} (hc : 0 < d.digits) (hlow : -6 < d.scale)
    (hhigh : d.scale ≤ 21) :
    IsNumeral (Text.ofString d.layout).units ∧
      ∃ (m : Nat) (e : Int), (m : ℚ) * 10 ^ e = d.toRat ∧ 0 < m ∧ e ≤ 309 ∧
        -e < (m.log2 : Int) + 1076 ∧
        numberValue (Text.ofString d.layout).units = Binary64.ofScientific m e := by
  obtain ⟨hchars, -, hlow10, -⟩ := toDigits_ten d.digits
  have hbmp : ∀ ch ∈ Nat.toDigits 10 d.digits, ch.toNat < 0x10000 := fun ch hch => by
    obtain ⟨i, hi, rfl⟩ := hchars ch hch
    exact (digitChar_unit i hi).1
  have hlog : (Nat.toDigits 10 d.digits).length - 1 ≤ d.digits.log2 := by
    rw [Nat.le_log2 hc.ne']
    exact le_trans (Nat.pow_le_pow_left (by norm_num) _) (hlow10 hc)
  have hscale : d.scale = ((Nat.toDigits 10 d.digits).length : Int) + d.exponent := by
    rw [scale, repr_length]
  have hD := digits_toDigits hc
  have hrepr : Nat.repr d.digits = String.ofList (Nat.toDigits 10 d.digits) := rfl
  simp only [layout, hrepr, String.length_ofList, String.toList_ofList]
  generalize Nat.toDigits 10 d.digits = cs at *
  split_ifs with h1 h2 h3
  · -- the digits, then zeros: a whole number
    rw [show (↑cs.length + d.exponent - ↑cs.length).toNat = d.exponent.toNat by omega,
      units_zeros_after hbmp]
    obtain ⟨hnum, hval⟩ := hD.numberValue_zeros d.exponent.toNat
    refine ⟨hnum, d.digits * 10 ^ d.exponent.toNat, 0, ?_, by positivity, by norm_num, by omega,
      hval⟩
    rw [toRat, zpow_zero, mul_one, Nat.cast_mul, Nat.cast_pow, ← zpow_natCast,
      Int.toNat_of_nonneg (by omega)]
    norm_num
  · -- a point among the digits
    rw [units_point_among hbmp]
    obtain ⟨hnum, hval⟩ := hD.numberValue_point (n := (↑cs.length + d.exponent).toNat)
      (by omega) (by simp; omega)
    refine ⟨hnum, d.digits, d.exponent, rfl, hc, by omega, by omega, hval.trans ?_⟩
    congr 1
    simp only [List.length_map]
    omega
  · -- zeros after the point, then the digits: a number below one
    rw [units_zeros_before hbmp]
    obtain ⟨hnum, hval⟩ := hD.numberValue_leading_zero (-(↑cs.length + d.exponent)).toNat
    refine ⟨hnum, d.digits, d.exponent, rfl, hc, by omega, by omega, hval.trans ?_⟩
    congr 1
    simp only [List.length_map]
    omega
  all_goals
    exfalso
    omega

end Decimal

end ExprFront
