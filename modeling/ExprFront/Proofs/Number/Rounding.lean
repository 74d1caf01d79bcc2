import Mathlib
import ExprFront.Number.Shortest
/-!
# Rounding a ratio to a binary64 value

A positive normal value `x = m * 2^q`, with `2^52 ≤ m < 2^53`, is what every rational of its
rounding interval reads as: from `(m - 1/2) * 2^q` to `(m + 1/2) * 2^q`, the lower end at
`(m - 1/4) * 2^q` when `m = 2^52` above the least normal exponent, the ends included when `m` is
even (`Interval.Contains`). `ofRatio` finds the binade of the ratio from the two binary
logarithms, scales it to that binade's significand, rounds half to even and carries a
significand of `2^53` into the next exponent; for a ratio in the interval of `x` that gives back
`m` at the exponent `q` (`ofRatio_eq_of_contains`).

A positive normal value is determined by its rational value (`PosNormal.eq_of_toRat_eq`), and
the intervals of two such values follow each other in their order (`PosNormal.high_le_low`).
-/

namespace ExprFront.Binary64


theorem biasedExponent_eq (x : Binary64) : x.biasedExponent = x.bits.toNat / 2 ^ 52 % 2 ^ 11 := by
  simp only [biasedExponent, UInt64.toNat_and, UInt64.toNat_shiftRight]
  rw [show (0x7FF : UInt64).toNat = 2 ^ 11 - 1 from rfl, Nat.and_two_pow_sub_one_eq_mod,
    Nat.shiftRight_eq_div_pow]
  rfl

theorem fraction_eq (x : Binary64) : x.fraction = x.bits.toNat % 2 ^ 52 := by
  simp only [fraction, UInt64.toNat_and]
  rw [show (0xFFFFFFFFFFFFF : UInt64).toNat = 2 ^ 52 - 1 from rfl, Nat.and_two_pow_sub_one_eq_mod]

theorem fraction_lt (x : Binary64) : x.fraction < 2 ^ 52 := by
  rw [fraction_eq]
  exact Nat.mod_lt _ (by norm_num)

theorem signBit_eq_false_iff (x : Binary64) : x.signBit = false ↔ x.bits.toNat < 2 ^ 63 := by
  have hlt := x.bits.toNat_lt
  simp only [signBit, beq_eq_false_iff_ne, ne_eq, ← UInt64.toNat_inj, UInt64.toNat_shiftRight]
  rw [Nat.shiftRight_eq_div_pow]
  simp only [UInt64.toNat_ofNat, Nat.reduceMod, Nat.reducePow] at hlt ⊢
  omega

theorem bits_toNat_of_signBit (x : Binary64) (h : x.signBit = false) :
    x.bits.toNat = x.biasedExponent * 2 ^ 52 + x.fraction := by
  rw [biasedExponent_eq, fraction_eq]
  have := (signBit_eq_false_iff x).1 h
  omega

/-- A positive normal value: the sign bit clear and the exponent field neither all zeros nor
all ones. -/
structure PosNormal (x : Binary64) : Prop where
  sign : x.signBit = false
  pos : 0 < x.biasedExponent
  finite : x.biasedExponent < 2047

namespace PosNormal

variable {x : Binary64}

theorem significand_eq (hx : x.PosNormal) : x.significand = 2 ^ 52 + x.fraction := by
  simp only [significand, Nat.pow_eq, if_neg (Nat.pos_iff_ne_zero.1 hx.pos)]

theorem exponent_eq (hx : x.PosNormal) : x.exponent = x.biasedExponent - 1075 := by
  simp only [exponent, if_neg (Nat.pos_iff_ne_zero.1 hx.pos)]

theorem le_significand (hx : x.PosNormal) : 2 ^ 52 ≤ x.significand := by
  rw [hx.significand_eq]
  omega

theorem significand_lt (hx : x.PosNormal) : x.significand < 2 ^ 53 := by
  have := x.fraction_lt
  rw [hx.significand_eq]
  omega

theorem pack_eq (hx : x.PosNormal) : pack x.significand x.exponent = x := by
  have hbits := bits_toNat_of_signBit x hx.sign
  have hf := x.fraction_lt
  have hq : (x.exponent + 1075).toNat = x.biasedExponent := by
    rw [hx.exponent_eq]
    omega
  simp only [pack, Nat.pow_eq]
  rw [if_neg (Nat.not_lt.2 hx.le_significand), hq, hx.significand_eq]
  have hword : (x.biasedExponent * 2 ^ 52 + (2 ^ 52 + x.fraction - 2 ^ 52)).toUInt64 = x.bits := by
    rw [← UInt64.toNat_inj, Nat.toUInt64_eq, UInt64.toNat_ofNat', hbits]
    have := hx.finite
    omega
  rw [hword]

end PosNormal

theorem roundHalfEven_eq {n d m : ℕ} (hd : 0 < d) (hm : 0 < m)
    (hlow : (2 * m - 1) * d ≤ 2 * n) (hhigh : 2 * n ≤ (2 * m + 1) * d)
    (htie : (2 * m - 1) * d = 2 * n ∨ 2 * n = (2 * m + 1) * d → m % 2 = 0) :
    roundHalfEven n d = m := by
  have hdm := Nat.div_add_mod n d
  have hr := Nat.mod_lt n hd
  have elow : (2 * m - 1) * d + d = 2 * (d * m) := by
    rw [Nat.sub_one_mul, Nat.sub_add_cancel (by nlinarith)]; ring
  have ehigh : (2 * m + 1) * d = 2 * (d * m) + d := by ring
  unfold roundHalfEven
  generalize n / d = q at hdm ⊢
  generalize n % d = r at hdm hr ⊢
  -- the quotient is `m` or one below it
  have hq : q = m ∨ q + 1 = m := by
    have h1 : d * q < d * (m + 1) := by rw [Nat.mul_add]; omega
    have h2 : d * m < d * (q + 2) := by rw [Nat.mul_add]; omega
    have := Nat.lt_of_mul_lt_mul_left h1
    have := Nat.lt_of_mul_lt_mul_left h2
    omega
  rcases hq with rfl | hq
  · -- at or above `q`: a remainder of a half is a tie at the upper end
    have htie' : 2 * r = d → q % 2 = 0 := fun h => htie (.inr (by omega))
    simp only [gt_iff_lt, Bool.or_eq_true, decide_eq_true_eq, Bool.and_eq_true, beq_iff_eq]
    rw [if_neg (by omega)]
  · -- below `q + 1`: a remainder of a half is a tie at the lower end
    have hdq : d * m = d * q + d := by rw [← hq, Nat.mul_add, Nat.mul_one]
    have htie' : 2 * r = d → m % 2 = 0 := fun h => htie (.inl (by omega))
    simp only [gt_iff_lt, Bool.or_eq_true, decide_eq_true_eq, Bool.and_eq_true, beq_iff_eq]
    rw [if_pos (by omega), hq]


/-- Rounding `n / k` gives `m` when the ratio is within a half of `m`, and `m` is even if it is
exactly a half away. -/
theorem roundHalfEven_eq_of_near {n k m : ℕ} (hk : 0 < k) (hm : 0 < m)
    (hlow : (m : ℚ) - 1 / 2 ≤ n / k) (hhigh : (n : ℚ) / k ≤ m + 1 / 2)
    (htie : (n : ℚ) / k = m - 1 / 2 ∨ (n : ℚ) / k = m + 1 / 2 → m % 2 = 0) :
    roundHalfEven n k = m := by
  have hkq : (0 : ℚ) < k := by exact_mod_cast hk
  have hm' : ((2 * m - 1 : ℕ) : ℚ) = 2 * m - 1 := by rw [Nat.cast_sub (by omega)]; push_cast; ring
  rw [le_div_iff₀ hkq] at hlow
  rw [div_le_iff₀ hkq] at hhigh
  apply roundHalfEven_eq hk hm
  · have : ((2 * m - 1 : ℕ) : ℚ) * k ≤ ((2 * n : ℕ) : ℚ) := by rw [hm']; push_cast; linarith
    exact_mod_cast this
  · have : ((2 * n : ℕ) : ℚ) ≤ ((2 * m + 1 : ℕ) : ℚ) * k := by push_cast; linarith
    exact_mod_cast this
  · intro he
    apply htie
    rcases he with he | he
    · left
      have : ((2 * m - 1 : ℕ) : ℚ) * k = ((2 * n : ℕ) : ℚ) := by exact_mod_cast he
      rw [hm'] at this
      push_cast at this
      field_simp
      linarith
    · right
      have : ((2 * n : ℕ) : ℚ) = ((2 * m + 1 : ℕ) : ℚ) * k := by exact_mod_cast he
      push_cast at this
      field_simp
      linarith

theorem scaleDown_spec (num den : ℕ) (q : ℤ) (hden : 0 < den) :
    0 < (scaleDown num den q).2 ∧
      ((scaleDown num den q).1 : ℚ) / (scaleDown num den q).2 = (num : ℚ) / den / 2 ^ q := by
  unfold scaleDown
  split
  · rename_i hq
    obtain ⟨n, rfl⟩ := Int.eq_ofNat_of_zero_le hq
    refine ⟨Nat.mul_pos hden (Nat.two_pow_pos n), ?_⟩
    simp [Nat.pow_eq, zpow_natCast, div_div]
  · rename_i hq
    obtain ⟨n, hn⟩ : ∃ n : ℕ, q = -(n : ℤ) := ⟨(-q).toNat, by omega⟩
    subst hn
    refine ⟨hden, ?_⟩
    simp only [Int.neg_neg, Int.toNat_natCast, Nat.pow_eq, Nat.cast_mul, Nat.cast_pow,
      Nat.cast_ofNat, zpow_neg, zpow_natCast]
    field_simp

/-- A ratio lies strictly between the powers of two its parts' binary logarithms give. -/
theorem ratio_bracket {num den : ℕ} (hnum : 0 < num) (hden : 0 < den) :
    (2 : ℚ) ^ ((num.log2 : ℤ) - den.log2 - 1) < num / den ∧
      (num : ℚ) / den < 2 ^ ((num.log2 : ℤ) - den.log2 + 1) := by
  have ha1 : (2 : ℚ) ^ num.log2 ≤ num := by exact_mod_cast Nat.log2_self_le hnum.ne'
  have ha2 : (num : ℚ) < 2 ^ (num.log2 + 1) := by exact_mod_cast Nat.lt_log2_self
  have hb1 : (2 : ℚ) ^ den.log2 ≤ den := by exact_mod_cast Nat.log2_self_le hden.ne'
  have hb2 : (den : ℚ) < 2 ^ (den.log2 + 1) := by exact_mod_cast Nat.lt_log2_self
  have hdq : (0 : ℚ) < den := by exact_mod_cast hden
  have e1 : (2 : ℚ) ^ ((num.log2 : ℤ) - den.log2 - 1) = 2 ^ num.log2 / 2 ^ (den.log2 + 1) := by
    rw [show (num.log2 : ℤ) - den.log2 - 1 = (num.log2 : ℤ) - ((den.log2 + 1 : ℕ) : ℤ) by
      push_cast; ring, zpow_sub₀ two_ne_zero, zpow_natCast, zpow_natCast]
  have e2 : (2 : ℚ) ^ ((num.log2 : ℤ) - den.log2 + 1) = 2 ^ (num.log2 + 1) / 2 ^ den.log2 := by
    rw [show (num.log2 : ℤ) - den.log2 + 1 = ((num.log2 + 1 : ℕ) : ℤ) - (den.log2 : ℤ) by
      push_cast; ring, zpow_sub₀ two_ne_zero, zpow_natCast, zpow_natCast]
  rw [e1, e2]
  constructor
  · rw [div_lt_div_iff₀ (by positivity) hdq]
    calc (2 : ℚ) ^ num.log2 * den ≤ num * den := by gcongr
      _ < num * 2 ^ (den.log2 + 1) := by gcongr
  · rw [div_lt_div_iff₀ hdq (by positivity)]
    calc (num : ℚ) * 2 ^ den.log2 ≤ num * den := by gcongr
      _ < 2 ^ (num.log2 + 1) * den := by gcongr

/-- The binade of a positive ratio: `2^e ≤ num / den < 2^(e+1)`. -/
theorem binade_spec {num den : ℕ} (hnum : 0 < num) (hden : 0 < den) :
    (2 : ℚ) ^ binade num den ≤ num / den ∧ (num : ℚ) / den < 2 ^ (binade num den + 1) := by
  obtain ⟨hlo, hhi⟩ := ratio_bracket hnum hden
  simp only [binade]
  generalize (num.log2 : ℤ) - den.log2 = d at hlo hhi ⊢
  obtain ⟨hk, hq⟩ := scaleDown_spec num den d hden
  generalize scaleDown num den d = p at hk hq ⊢
  obtain ⟨n, k⟩ := p
  dsimp only at hk hq ⊢
  have hkq : (0 : ℚ) < k := by exact_mod_cast hk
  have hp : (0 : ℚ) < 2 ^ d := zpow_pos two_pos d
  split
  · rename_i hkn
    refine ⟨?_, hhi⟩
    have : (1 : ℚ) ≤ n / k := by rw [one_le_div hkq]; exact_mod_cast hkn
    rw [hq, one_le_div hp] at this
    exact this
  · rename_i hkn
    refine ⟨hlo.le, ?_⟩
    have : (n : ℚ) / k < 1 := by rw [div_lt_one hkq]; exact_mod_cast Nat.lt_of_not_le hkn
    rw [hq, div_lt_one hp] at this
    rwa [sub_add_cancel]

theorem interval_eq (x : Binary64) : ∃ u d : ℕ, 0 < d ∧ (u : ℚ) / d = 2 ^ (x.exponent - 2) ∧
    x.interval =
      { value := 4 * x.significand * u
        low := (if x.fraction = 0 ∧ x.biasedExponent > 1 then 4 * x.significand - 1
          else 4 * x.significand - 2) * u
        high := (4 * x.significand + 2) * u
        den := d
        closed := x.significand % 2 == 0 } := by
  by_cases hq : 2 ≤ x.exponent
  · refine ⟨Nat.pow 2 (x.exponent - 2).toNat, 1, one_pos, ?_, by simp [interval, if_pos hq]⟩
    rw [Nat.cast_one, div_one, Nat.pow_eq, Nat.cast_pow, Nat.cast_ofNat, ← zpow_natCast,
      Int.toNat_of_nonneg (by omega)]
  · refine ⟨1, Nat.pow 2 (2 - x.exponent).toNat, Nat.two_pow_pos _, ?_,
      by simp [interval, if_neg hq]⟩
    rw [Nat.cast_one, Nat.pow_eq, Nat.cast_pow, Nat.cast_ofNat, ← zpow_natCast,
      Int.toNat_of_nonneg (by omega), one_div, ← zpow_neg, neg_sub]

/-- Whether the value is the least of its binade above the least normal one: the value below
it is then half as far away. -/
def IsNarrow (x : Binary64) : Prop := x.fraction = 0 ∧ x.biasedExponent > 1

instance : DecidablePred IsNarrow := fun x =>
  inferInstanceAs (Decidable (x.fraction = 0 ∧ x.biasedExponent > 1))

theorem interval_den_pos (x : Binary64) : 0 < x.interval.den := by
  obtain ⟨u, d, hd, -, heq⟩ := interval_eq x
  rw [heq]
  exact hd

theorem interval_closed (x : Binary64) : x.interval.closed = true ↔ x.significand % 2 = 0 := by
  obtain ⟨u, d, -, -, heq⟩ := interval_eq x
  rw [heq]
  simp

theorem interval_value_div (x : Binary64) :
    (x.interval.value : ℚ) / x.interval.den = x.significand * 2 ^ x.exponent := by
  obtain ⟨u, d, hd, hud, heq⟩ := interval_eq x
  rw [heq]
  dsimp only
  rw [Nat.cast_mul, mul_div_assoc, hud, zpow_sub₀ two_ne_zero]
  push_cast
  ring

theorem interval_high_div (x : Binary64) :
    (x.interval.high : ℚ) / x.interval.den = (x.significand + 1 / 2) * 2 ^ x.exponent := by
  obtain ⟨u, d, hd, hud, heq⟩ := interval_eq x
  rw [heq]
  dsimp only
  rw [Nat.cast_mul, mul_div_assoc, hud, zpow_sub₀ two_ne_zero]
  push_cast
  ring

theorem interval_low_div (x : Binary64) (hm : 1 ≤ x.significand) :
    (x.interval.low : ℚ) / x.interval.den =
      (x.significand - if x.IsNarrow then 1 / 4 else 1 / 2) * 2 ^ x.exponent := by
  obtain ⟨u, d, hd, hud, heq⟩ := interval_eq x
  rw [heq]
  dsimp only
  rw [Nat.cast_mul, mul_div_assoc, hud, zpow_sub₀ two_ne_zero]
  by_cases hn : x.IsNarrow
  · rw [if_pos (show x.fraction = 0 ∧ x.biasedExponent > 1 from hn), if_pos hn,
      Nat.cast_sub (by omega)]
    push_cast
    ring
  · rw [if_neg (show ¬(x.fraction = 0 ∧ x.biasedExponent > 1) from hn), if_neg hn,
      Nat.cast_sub (by omega)]
    push_cast
    ring


/-- A rational lies in a rounding interval: strictly between its ends, or on one of them when
the interval is closed. -/
def Interval.Contains (iv : Interval) (r : ℚ) : Prop :=
  if iv.closed then (iv.low : ℚ) / iv.den ≤ r ∧ r ≤ (iv.high : ℚ) / iv.den
  else (iv.low : ℚ) / iv.den < r ∧ r < (iv.high : ℚ) / iv.den

theorem Interval.contains_of_lt {iv : Interval} {r : ℚ} (h1 : (iv.low : ℚ) / iv.den < r)
    (h2 : r < (iv.high : ℚ) / iv.den) : iv.Contains r := by
  unfold Interval.Contains
  split
  · exact ⟨h1.le, h2.le⟩
  · exact ⟨h1, h2⟩

theorem Interval.Contains.low_le {iv : Interval} {r : ℚ} (h : iv.Contains r) :
    (iv.low : ℚ) / iv.den ≤ r := by
  unfold Interval.Contains at h
  split at h
  · exact h.1
  · exact h.1.le

theorem Interval.Contains.le_high {iv : Interval} {r : ℚ} (h : iv.Contains r) :
    r ≤ (iv.high : ℚ) / iv.den := by
  unfold Interval.Contains at h
  split at h
  · exact h.2
  · exact h.2.le

theorem contains_bounds {x : Binary64} (hm : 1 ≤ x.significand) {r : ℚ}
    (h : x.interval.Contains r) :
    ((x.significand : ℚ) - 1 / 2) * 2 ^ x.exponent ≤ r ∧
      r ≤ ((x.significand : ℚ) + 1 / 2) * 2 ^ x.exponent ∧
      (x.IsNarrow → ((x.significand : ℚ) - 1 / 4) * 2 ^ x.exponent ≤ r) ∧
      (r = ((x.significand : ℚ) - 1 / 2) * 2 ^ x.exponent ∨
        r = ((x.significand : ℚ) + 1 / 2) * 2 ^ x.exponent → x.significand % 2 = 0) := by
  have hp : (0 : ℚ) < 2 ^ x.exponent := zpow_pos two_pos _
  unfold Interval.Contains at h
  rw [interval_low_div x hm, interval_high_div] at h
  split at h
  · rename_i hc
    obtain ⟨h1, h2⟩ := h
    refine ⟨?_, h2, fun hn => by rwa [if_pos hn] at h1, fun _ => (interval_closed x).1 hc⟩
    split at h1 <;> nlinarith
  · obtain ⟨h1, h2⟩ := h
    refine ⟨?_, h2.le, fun hn => by rw [if_pos hn] at h1; exact h1.le, fun he => ?_⟩
    · split at h1 <;> nlinarith
    · exfalso
      rcases he with he | he
      · split at h1 <;> nlinarith
      · linarith


theorem two_zpow_add (q : ℤ) (k : ℕ) : (2 : ℚ) ^ (q + k) = 2 ^ k * 2 ^ q := by
  rw [zpow_add₀ two_ne_zero, zpow_natCast, mul_comm]

/-- The exponent at which `ofRatio` rounds a ratio in the rounding interval of a positive normal
value: the value's own, or one below when the value is the least of its binade and the ratio
lies below it. -/
theorem roundingExponent_of_contains {x : Binary64} (hx : x.PosNormal) {num den : ℕ}
    (hnum : 0 < num) (hden : 0 < den) (h : x.interval.Contains ((num : ℚ) / den)) :
    max (binade num den - 52) (-1074) = x.exponent ∨
      (max (binade num den - 52) (-1074) = x.exponent - 1 ∧ x.significand = 2 ^ 52 ∧
        x.IsNarrow ∧ (num : ℚ) / den < 2 ^ (x.exponent + 52)) := by
  have hM1 := hx.le_significand
  have hM2 := hx.significand_lt
  have hQ := hx.exponent_eq
  have hpos := hx.pos
  obtain ⟨hlow, hhigh, -, -⟩ := contains_bounds (by omega) h
  obtain ⟨hb1, hb2⟩ := binade_spec hnum hden
  have hM1q : (2 : ℚ) ^ 52 ≤ x.significand := by exact_mod_cast hM1
  have hM2q : (x.significand : ℚ) + 1 ≤ 2 ^ 53 := by exact_mod_cast hM2
  have hp : (0 : ℚ) < 2 ^ x.exponent := zpow_pos two_pos _
  have e53 : (2 : ℚ) ^ (x.exponent + 53) = 2 ^ 53 * 2 ^ x.exponent := by
    exact_mod_cast two_zpow_add x.exponent 53
  have e52 : (2 : ℚ) ^ (x.exponent + 52) = 2 ^ 52 * 2 ^ x.exponent := by
    exact_mod_cast two_zpow_add x.exponent 52
  have e51 : (2 : ℚ) ^ (x.exponent + 51) = 2 ^ 51 * 2 ^ x.exponent := by
    exact_mod_cast two_zpow_add x.exponent 51
  -- the binade of the ratio is that of the value or the one below
  have hup : (num : ℚ) / den < 2 ^ (x.exponent + 53) := by
    rw [e53]
    nlinarith
  have hdown : 2 ^ (x.exponent + 51) < (num : ℚ) / den := by
    rw [e51]
    nlinarith
  have hβ1 : binade num den < x.exponent + 53 :=
    (zpow_lt_zpow_iff_right₀ one_lt_two).1 (lt_of_le_of_lt hb1 hup)
  have hβ2 : x.exponent + 51 < binade num den + 1 :=
    (zpow_lt_zpow_iff_right₀ one_lt_two).1 (lt_trans hdown hb2)
  rcases (show binade num den = x.exponent + 52 ∨ binade num den = x.exponent + 51 by omega)
    with hβ | hβ
  · left
    omega
  · have hbelow : (num : ℚ) / den < 2 ^ (x.exponent + 52) := by
      rw [hβ, show x.exponent + 51 + 1 = x.exponent + 52 by ring] at hb2
      exact hb2
    -- below the binade, so the significand is the least of its binade
    have hM : x.significand = 2 ^ 52 := by
      have : (x.significand : ℚ) < 2 ^ 52 + 1 := by
        rw [e52] at hbelow
        nlinarith
      have : x.significand < 2 ^ 52 + 1 := by exact_mod_cast this
      omega
    by_cases hbe : x.biasedExponent = 1
    · left
      omega
    · have hf : x.fraction = 0 := by
        have := hx.significand_eq
        omega
      exact .inr ⟨by omega, hM, ⟨hf, by omega⟩, hbelow⟩

/-- Reading a ratio that lies in the rounding interval of a positive normal value gives that
value. -/
theorem ofRatio_eq_of_contains {x : Binary64} (hx : x.PosNormal) {num den : ℕ} (hnum : 0 < num)
    (hden : 0 < den) (h : x.interval.Contains ((num : ℚ) / den)) : ofRatio num den = x := by
  have hM1 := hx.le_significand
  have hM2 := hx.significand_lt
  have hQ := hx.exponent_eq
  have hfin := hx.finite
  obtain ⟨hlow, hhigh, hnarrow, htie⟩ := contains_bounds (by omega) h
  have hp : (0 : ℚ) < 2 ^ x.exponent := zpow_pos two_pos _
  have hcase := roundingExponent_of_contains hx hnum hden h
  rw [ofRatio, if_neg hnum.ne']
  dsimp only
  obtain ⟨hk, hratio⟩ := scaleDown_spec num den (max (binade num den - 52) (-1074)) hden
  rcases hcase with hq | ⟨hq, hM, hn, hbelow⟩
  · -- at the value's exponent the ratio rounds to the significand
    rw [hq] at hratio hk ⊢
    have hround : roundHalfEven (scaleDown num den x.exponent).1
        (scaleDown num den x.exponent).2 = x.significand := by
      apply roundHalfEven_eq_of_near hk (by omega)
      · rw [hratio, le_div_iff₀ hp]
        exact hlow
      · rw [hratio, div_le_iff₀ hp]
        exact hhigh
      · intro he
        apply htie
        rw [hratio, div_eq_iff hp.ne', div_eq_iff hp.ne'] at he
        exact he
    have hne : x.significand ≠ Nat.pow 2 53 := by
      rw [Nat.pow_eq]
      omega
    have hle : ¬x.exponent > 971 := by omega
    rw [hround, if_neg hne]
    dsimp only
    rw [if_neg hle]
    exact hx.pack_eq
  · -- one below, the ratio rounds up to `2^53`, which carries back into the value's exponent
    rw [hq] at hratio hk ⊢
    have hround : roundHalfEven (scaleDown num den (x.exponent - 1)).1
        (scaleDown num den (x.exponent - 1)).2 = 2 ^ 53 := by
      have e : (num : ℚ) / den / 2 ^ (x.exponent - 1) = 2 * ((num : ℚ) / den) / 2 ^ x.exponent := by
        rw [zpow_sub₀ two_ne_zero, zpow_one]
        field_simp
      have e52 : (2 : ℚ) ^ (x.exponent + 52) = 2 ^ 52 * 2 ^ x.exponent := by
        exact_mod_cast two_zpow_add x.exponent 52
      rw [e] at hratio
      have hM' : (x.significand : ℚ) = 2 ^ 52 := by exact_mod_cast hM
      apply roundHalfEven_eq_of_near hk (by norm_num)
      · rw [hratio, le_div_iff₀ hp]
        have := hnarrow hn
        push_cast
        nlinarith
      · rw [hratio, div_le_iff₀ hp]
        rw [e52] at hbelow
        push_cast
        nlinarith
      · intro _
        norm_num
    have hle : ¬x.exponent - 1 + 1 > 971 := by omega
    rw [hround, if_pos Nat.pow_eq.symm]
    dsimp only
    rw [if_neg hle, sub_add_cancel, Nat.pow_eq, ← hM]
    exact hx.pack_eq

/-- The value of a finite number, as a rational. -/
def toRat (x : Binary64) : ℚ := (if x.signBit then -1 else 1) * x.significand * 2 ^ x.exponent

theorem PosNormal.toRat_eq {x : Binary64} (hx : x.PosNormal) :
    x.toRat = x.significand * 2 ^ x.exponent := by
  rw [toRat, if_neg (by rw [hx.sign]; decide), one_mul]

/-- Of two positive normal values, the smaller has the smaller or the same exponent. -/
theorem PosNormal.exponent_le {x y : Binary64} (hx : x.PosNormal) (hy : y.PosNormal)
    (h : x.toRat ≤ y.toRat) : x.exponent ≤ y.exponent := by
  rw [hx.toRat_eq, hy.toRat_eq] at h
  by_contra hlt
  have hM1 : (2 : ℚ) ^ 52 ≤ x.significand := by exact_mod_cast hx.le_significand
  have hM2 : (y.significand : ℚ) + 1 ≤ 2 ^ 53 := by exact_mod_cast hy.significand_lt
  have hpow : (2 : ℚ) ^ (y.exponent + 1) ≤ 2 ^ x.exponent :=
    zpow_le_zpow_right₀ one_le_two (by omega)
  rw [zpow_add_one₀ two_ne_zero] at hpow
  have hp : (0 : ℚ) < 2 ^ y.exponent := zpow_pos two_pos _
  nlinarith

/-- A positive normal value is determined by its rational value. -/
theorem PosNormal.eq_of_toRat_eq {x y : Binary64} (hx : x.PosNormal) (hy : y.PosNormal)
    (h : x.toRat = y.toRat) : x = y := by
  have hq : x.exponent = y.exponent :=
    le_antisymm (hx.exponent_le hy h.le) (hy.exponent_le hx h.ge)
  have hm : x.significand = y.significand := by
    rw [hx.toRat_eq, hy.toRat_eq, hq] at h
    exact_mod_cast mul_right_cancel₀ (zpow_pos two_pos y.exponent).ne' h
  rw [← hx.pack_eq, ← hy.pack_eq, hm, hq]

/-- Above the least binade the rounding interval begins at most a quarter unit below `2^52`
units: a narrow value has `2^52` units and a quarter unit below it, any other at least
`2^52 + 1` units and half a unit below it. -/
theorem PosNormal.quarter_below_le_low {y : Binary64} (hy : y.PosNormal)
    (hbe : 1 < y.biasedExponent) :
    (2 : ℚ) ^ 52 - 1 / 4 ≤ y.significand - if y.IsNarrow then 1 / 4 else 1 / 2 := by
  have hMy : (2 : ℚ) ^ 52 ≤ y.significand := by exact_mod_cast hy.le_significand
  split
  · linarith
  · rename_i hn
    have hf : y.fraction ≠ 0 := fun hf => hn ⟨hf, hbe⟩
    have : 2 ^ 52 + 1 ≤ y.significand := by
      rw [hy.significand_eq]
      omega
    have : (2 : ℚ) ^ 52 + 1 ≤ y.significand := by exact_mod_cast this
    linarith

/-- The rounding interval of a smaller positive normal value ends where that of a larger one
begins, or below. -/
theorem PosNormal.high_le_low {x y : Binary64} (hx : x.PosNormal) (hy : y.PosNormal)
    (h : x.toRat < y.toRat) :
    (x.interval.high : ℚ) / x.interval.den ≤ (y.interval.low : ℚ) / y.interval.den := by
  have hq := hx.exponent_le hy h.le
  have hMx : (x.significand : ℚ) + 1 ≤ 2 ^ 53 := by exact_mod_cast hx.significand_lt
  have hMy : (2 : ℚ) ^ 52 ≤ y.significand := by exact_mod_cast hy.le_significand
  have hp : (0 : ℚ) < 2 ^ x.exponent := zpow_pos two_pos _
  rw [interval_high_div, interval_low_div y (by have := hy.le_significand; omega)]
  rw [hx.toRat_eq, hy.toRat_eq] at h
  rcases hq.lt_or_eq with hlt | heq
  · -- a higher binade: its interval starts at least at a quarter unit below `2^52` of its units
    have hpow : (2 : ℚ) ^ (x.exponent + 1) ≤ 2 ^ y.exponent :=
      zpow_le_zpow_right₀ one_le_two (by omega)
    rw [zpow_add_one₀ two_ne_zero] at hpow
    have hlow := hy.quarter_below_le_low (by
      have := hx.exponent_eq
      have := hy.exponent_eq
      have := hx.pos
      omega)
    nlinarith
  · -- the same binade: a larger significand, which is not the least of the binade
    rw [← heq] at h ⊢
    have hM : x.significand + 1 ≤ y.significand := by
      have : (x.significand : ℚ) < y.significand := lt_of_mul_lt_mul_right h hp.le
      exact_mod_cast this
    have hn : ¬y.IsNarrow := fun hn => by
      have hy' := hy.significand_eq
      have := hx.le_significand
      rw [hn.1] at hy'
      omega
    rw [if_neg hn]
    have : (x.significand : ℚ) + 1 ≤ y.significand := by exact_mod_cast hM
    nlinarith

/-- The rounding interval of a positive normal value begins below it. -/
theorem PosNormal.low_lt_toRat {x : Binary64} (hx : x.PosNormal) :
    (x.interval.low : ℚ) / x.interval.den < x.toRat := by
  have hp : (0 : ℚ) < 2 ^ x.exponent := zpow_pos two_pos _
  rw [interval_low_div x (by have := hx.le_significand; omega), hx.toRat_eq]
  split <;> nlinarith

/-- A finite value at or above the least normal magnitude `2^-1022` is positive and normal. -/
theorem posNormal_of_le_toRat {x : Binary64} (hfin : x.isFinite = true)
    (h : (2 : ℚ) ^ (-1022 : ℤ) ≤ x.toRat) : x.PosNormal := by
  have hp : (0 : ℚ) < 2 ^ (-1022 : ℤ) := zpow_pos two_pos _
  have hsign : x.signBit = false := by
    by_contra hs
    have hs' : x.signBit = true := by simpa using hs
    have : x.toRat ≤ 0 := by
      rw [toRat, if_pos hs']
      have : (0 : ℚ) ≤ x.significand * 2 ^ x.exponent := by positivity
      linarith
    linarith
  have hlt : x.biasedExponent < 2048 := by
    rw [biasedExponent_eq]
    exact Nat.mod_lt _ (by norm_num)
  have hfin' : x.biasedExponent ≠ 0x7FF := by simpa [isFinite] using hfin
  refine ⟨hsign, Nat.pos_of_ne_zero fun hzero => ?_, by omega⟩
  -- a subnormal value is below `2^52 * 2^-1074 = 2^-1022`
  have hm : (x.significand : ℚ) < 2 ^ 52 := by
    have : x.significand < 2 ^ 52 := by
      simp only [significand, if_pos hzero]
      exact x.fraction_lt
    exact_mod_cast this
  have he : x.exponent = -1074 := by simp only [exponent, if_pos hzero]
  rw [toRat, if_neg (by rw [hsign]; decide), one_mul, he] at h
  have e : (2 : ℚ) ^ (-1022 : ℤ) = 2 ^ 52 * 2 ^ (-1074 : ℤ) := by
    rw [← zpow_natCast, ← zpow_add₀ two_ne_zero]
    norm_num
  have hq : (0 : ℚ) < 2 ^ (-1074 : ℤ) := zpow_pos two_pos _
  rw [e] at h
  nlinarith

end ExprFront.Binary64
