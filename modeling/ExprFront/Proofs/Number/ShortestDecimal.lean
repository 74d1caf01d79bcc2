import ExprFront.Proofs.Number.Rounding
/-!
# The shortest decimal lies in the rounding interval

`Binary64.shortest` tries one significant digit, then two, and so on: at `d` digits the
candidates are the multiples of `10^(n-d)` just below and just above the value, where
`10^(n-1) ≤ value < 10^n`, and it takes the first one in the rounding interval. Every exact
comparison it makes is a comparison of rationals (`crossScale_compare`, `Interval.admits_iff`,
`Interval.scale_spec`, `Interval.floor_spec`). At seventeen digits the step is shorter than
the half-width of the interval, as `2^53 < 10^16`, so the candidate nearer the value is inside
it (`PosNormal.contains_of_near`); hence whatever the search returns is in the interval
(`Interval.search_contains`), and so is the decimal with its trailing zeros moved into the
exponent.

Main statement (`PosNormal.shortest_contains`).
-/

namespace ExprFront

namespace Decimal

/-- The value of a decimal. -/
def toRat (d : Decimal) : ℚ := d.digits * 10 ^ d.exponent

theorem normalize_toRat (d : Decimal) : d.normalize.toRat = d.toRat := by
  fun_induction normalize d with
  | case1 d h ih =>
    rw [ih, toRat, toRat, zpow_add_one₀ (by norm_num)]
    have : d.digits = d.digits / 10 * 10 := (Nat.div_mul_cancel (Nat.dvd_of_mod_eq_zero h.2)).symm
    conv_rhs => rw [this]
    push_cast
    ring
  | case2 d h => rfl

theorem digitCount_spec (n : ℕ) (hn : 0 < n) :
    1 ≤ digitCount n ∧ 10 ^ (digitCount n - 1) ≤ n ∧ n < 10 ^ digitCount n := by
  fun_induction digitCount n with
  | case1 n hlt => simp; omega
  | case2 n hge ih =>
    obtain ⟨h1, h2, h3⟩ := ih (by omega)
    refine ⟨by omega, ?_, ?_⟩
    · rw [Nat.add_sub_cancel, ← Nat.sub_add_cancel h1, Nat.pow_succ]
      omega
    · rw [Nat.pow_succ]
      omega

end Decimal

namespace Binary64

variable {e : ℤ} {den : ℕ}

theorem crossScale_spec (e : ℤ) (hden : 0 < den) :
    0 < (crossScale e den).1 ∧ 0 < (crossScale e den).2 ∧
      ((crossScale e den).1 : ℚ) = 10 ^ e * den * (crossScale e den).2 := by
  unfold crossScale
  split
  · rename_i he
    obtain ⟨n, rfl⟩ := Int.eq_ofNat_of_zero_le he
    refine ⟨Nat.mul_pos (Nat.pow_pos (by norm_num)) hden, one_pos, ?_⟩
    simp [Nat.pow_eq]
  · rename_i he
    obtain ⟨n, hn⟩ : ∃ n : ℕ, e = -(n : ℤ) := ⟨(-e).toNat, by omega⟩
    subst hn
    refine ⟨hden, Nat.pow_pos (by norm_num), ?_⟩
    simp only [Int.neg_neg, Int.toNat_natCast, Nat.pow_eq, Nat.cast_pow, Nat.cast_ofNat, zpow_neg,
      zpow_natCast]
    field_simp

/-- With `(a, b) = crossScale e den`, comparing `u / den` with `t * 10^e` is comparing `u * b`
with `t * a`. -/
theorem crossScale_compare (e : ℤ) (hden : 0 < den) (u : ℕ) (t : ℚ) :
    ((u : ℚ) / den ≤ t * 10 ^ e ↔ (u : ℚ) * (crossScale e den).2 ≤ t * (crossScale e den).1) ∧
      ((u : ℚ) / den < t * 10 ^ e ↔ (u : ℚ) * (crossScale e den).2 < t * (crossScale e den).1) ∧
      (t * 10 ^ e ≤ (u : ℚ) / den ↔ t * (crossScale e den).1 ≤ (u : ℚ) * (crossScale e den).2) ∧
      (t * 10 ^ e < (u : ℚ) / den ↔ t * (crossScale e den).1 < (u : ℚ) * (crossScale e den).2) := by
  obtain ⟨-, hb, hab⟩ := crossScale_spec e hden
  have hpos : (0 : ℚ) < den * (crossScale e den).2 := by positivity
  have hdq : (den : ℚ) ≠ 0 := by positivity
  have hu : (u : ℚ) / den * (den * (crossScale e den).2) = u * (crossScale e den).2 := by
    field_simp
  have ht : t * 10 ^ e * (den * (crossScale e den).2) = t * (crossScale e den).1 := by
    rw [hab]
    ring
  refine ⟨?_, ?_, ?_, ?_⟩
  · rw [← mul_le_mul_iff_of_pos_right hpos, hu, ht]
  · rw [← mul_lt_mul_iff_of_pos_right hpos, hu, ht]
  · rw [← mul_le_mul_iff_of_pos_right hpos, hu, ht]
  · rw [← mul_lt_mul_iff_of_pos_right hpos, hu, ht]

theorem Interval.admits_iff {iv : Interval} (hden : 0 < iv.den) (c : ℕ) (e : ℤ) :
    iv.admits c e = true ↔ iv.Contains (c * 10 ^ e) := by
  obtain ⟨hl1, hl2, -, -⟩ := crossScale_compare e hden iv.low c
  obtain ⟨-, -, hh1, hh2⟩ := crossScale_compare e hden iv.high c
  unfold Interval.admits Interval.Contains
  generalize crossScale e iv.den = p at hl1 hl2 hh1 hh2 ⊢
  obtain ⟨a, b⟩ := p
  dsimp only at hl1 hl2 hh1 hh2 ⊢
  split <;> simp only [Bool.and_eq_true, decide_eq_true_eq, ← Nat.cast_le (α := ℚ),
    ← Nat.cast_lt (α := ℚ), Nat.cast_mul, hl1, hl2, hh1, hh2]


theorem ten_zpow_sub_one {k : ℕ} (hk : 1 ≤ k) : (10 : ℚ) ^ ((k : ℤ) - 1) = 10 ^ (k - 1) := by
  rw [show (k : ℤ) - 1 = ((k - 1 : ℕ) : ℤ) by omega, zpow_natCast]

/-- The scale of an interval is the least `n` with `value / den < 10^n`. -/
theorem Interval.scale_spec {iv : Interval} (hden : 0 < iv.den) (hv : 0 < iv.value) :
    (10 : ℚ) ^ (iv.scale - 1) ≤ iv.value / iv.den ∧ (iv.value : ℚ) / iv.den < 10 ^ iv.scale := by
  have hdq : (0 : ℚ) < iv.den := by exact_mod_cast hden
  unfold Interval.scale
  split
  · rename_i hle
    -- at least one: as many digits as its integer part
    obtain ⟨h1, h2, h3⟩ := Decimal.digitCount_spec (iv.value / iv.den)
      ((Nat.le_div_iff_mul_le hden).2 (by omega))
    have hlow : 10 ^ (Decimal.digitCount (iv.value / iv.den) - 1) * iv.den ≤ iv.value :=
      le_trans (Nat.mul_le_mul_right _ h2) (Nat.div_mul_le_self _ _)
    have hhigh : iv.value < 10 ^ Decimal.digitCount (iv.value / iv.den) * iv.den :=
      lt_of_lt_of_le (Nat.lt_mul_div_succ iv.value hden)
        (by rw [Nat.mul_comm]; exact Nat.mul_le_mul_right _ h3)
    rw [ten_zpow_sub_one h1, le_div_iff₀ hdq, zpow_natCast, div_lt_iff₀ hdq]
    exact ⟨by exact_mod_cast hlow, by exact_mod_cast hhigh⟩
  · rename_i hlt
    -- below one: `1 - k`, where `k` is the number of digits of `⌊(den - 1) / value⌋`
    obtain ⟨h1, h2, h3⟩ := Decimal.digitCount_spec ((iv.den - 1) / iv.value)
      ((Nat.le_div_iff_mul_le hv).2 (by omega))
    generalize hj : (iv.den - 1) / iv.value = j at h1 h2 h3
    have hlow : iv.den ≤ iv.value * 10 ^ Decimal.digitCount j := by
      have := Nat.lt_mul_div_succ (iv.den - 1) hv
      rw [hj] at this
      have := Nat.mul_le_mul_left iv.value (show j + 1 ≤ 10 ^ Decimal.digitCount j by omega)
      omega
    have hhigh : iv.value * 10 ^ (Decimal.digitCount j - 1) < iv.den := by
      have := Nat.mul_div_le (iv.den - 1) iv.value
      rw [hj] at this
      have := Nat.mul_le_mul_left iv.value h2
      omega
    have e1 : (1 : ℤ) - Decimal.digitCount j - 1 = -(Decimal.digitCount j : ℤ) := by ring
    have e2 : (1 : ℤ) - Decimal.digitCount j = -((Decimal.digitCount j - 1 : ℕ) : ℤ) := by omega
    rw [e1, e2, zpow_neg, zpow_neg, zpow_natCast, zpow_natCast, inv_eq_one_div, inv_eq_one_div,
      div_le_div_iff₀ (by positivity) hdq, div_lt_div_iff₀ hdq (by positivity)]
    constructor
    · rw [one_mul]
      exact_mod_cast hlow
    · rw [one_mul]
      exact_mod_cast hhigh

/-- `⌊(value / den) / 10^e⌋`, computed as `value * b / a`, brackets the value. -/
theorem Interval.floor_spec {iv : Interval} (hden : 0 < iv.den) (e : ℤ) :
    (((iv.value * (crossScale e iv.den).2 / (crossScale e iv.den).1 : ℕ) : ℚ)) * 10 ^ e ≤
        iv.value / iv.den ∧
      (iv.value : ℚ) / iv.den <
        (((iv.value * (crossScale e iv.den).2 / (crossScale e iv.den).1 : ℕ) : ℚ) + 1) *
          10 ^ e := by
  obtain ⟨ha, -, -⟩ := crossScale_spec e hden
  obtain ⟨-, -, hlo, -⟩ := crossScale_compare e hden iv.value
    ((iv.value * (crossScale e iv.den).2 / (crossScale e iv.den).1 : ℕ) : ℚ)
  obtain ⟨-, hhi, -, -⟩ := crossScale_compare e hden iv.value
    (((iv.value * (crossScale e iv.den).2 / (crossScale e iv.den).1 : ℕ) : ℚ) + 1)
  rw [hlo, hhi]
  generalize crossScale e iv.den = p at ha ⊢
  obtain ⟨a, b⟩ := p
  dsimp only at ha ⊢
  constructor
  · exact_mod_cast Nat.div_mul_le_self _ _
  · have := Nat.lt_mul_div_succ (iv.value * b) ha
    have : ((iv.value * b : ℕ) : ℚ) < (a * (iv.value * b / a + 1) : ℕ) := by exact_mod_cast this
    push_cast at this ⊢
    linarith

/-- Of the two candidates around the value, `nearer` takes one at most half a step away. -/
theorem Interval.nearer_spec {iv : Interval} (hden : 0 < iv.den) {e : ℤ} {lo : ℕ}
    (hlo : (lo : ℚ) * 10 ^ e ≤ iv.value / iv.den)
    (hhi : (iv.value : ℚ) / iv.den < (lo + 1) * 10 ^ e) :
    (iv.nearer lo e = lo ∨ iv.nearer lo e = lo + 1) ∧
      ((iv.nearer lo e : ℚ) - 1 / 2) * 10 ^ e ≤ iv.value / iv.den ∧
      (iv.value : ℚ) / iv.den ≤ ((iv.nearer lo e : ℚ) + 1 / 2) * 10 ^ e := by
  rw [(crossScale_compare e hden iv.value lo).2.2.1] at hlo
  rw [(crossScale_compare e hden iv.value (lo + 1)).2.1] at hhi
  rw [(crossScale_compare e hden iv.value _).2.2.1, (crossScale_compare e hden iv.value _).1]
  unfold Interval.nearer
  generalize crossScale e iv.den = p at hlo hhi ⊢
  obtain ⟨a, b⟩ := p
  dsimp only at hlo hhi ⊢
  -- in natural numbers the value lies in `[lo * a, lo * a + a)`
  have h1 : lo * a ≤ iv.value * b := by exact_mod_cast hlo
  have h2 : iv.value * b < lo * a + a := by
    have : ((iv.value * b : ℕ) : ℚ) < ((lo * a + a : ℕ) : ℚ) := by push_cast; linarith
    exact_mod_cast this
  have hq1 : (lo : ℚ) * a ≤ iv.value * b := by exact_mod_cast h1
  have hq2 : (iv.value : ℚ) * b < lo * a + a := by exact_mod_cast h2
  rw [Nat.add_mul, Nat.one_mul]
  split
  · rename_i hb
    have : 2 * (iv.value * b) ≤ 2 * (lo * a) + a := by omega
    have : (2 : ℚ) * (iv.value * b) ≤ 2 * (lo * a) + a := by exact_mod_cast this
    refine ⟨.inl rfl, ?_, ?_⟩ <;> nlinarith
  · split
    · rename_i _ hb
      have : 2 * (lo * a) + a ≤ 2 * (iv.value * b) := by omega
      have : (2 : ℚ) * (lo * a) + a ≤ 2 * (iv.value * b) := by exact_mod_cast this
      refine ⟨.inr rfl, ?_, ?_⟩ <;> push_cast <;> nlinarith
    · -- a tie: the value is halfway, and either candidate is half a step away
      rename_i hb1 hb2
      have : 2 * (iv.value * b) = 2 * (lo * a) + a := by omega
      have : (2 : ℚ) * (iv.value * b) = 2 * (lo * a) + a := by exact_mod_cast this
      split
      · refine ⟨.inl rfl, ?_, ?_⟩ <;> nlinarith
      · refine ⟨.inr rfl, ?_, ?_⟩ <;> push_cast <;> nlinarith

theorem Interval.search_contains {iv : Interval} (hden : 0 < iv.den) (n : ℤ) (d : ℕ)
    (hnear : ∀ e : ℤ, e ≤ n - 17 → ∀ c : ℕ, ((c : ℚ) - 1 / 2) * 10 ^ e ≤ iv.value / iv.den →
      (iv.value : ℚ) / iv.den ≤ (c + 1 / 2) * 10 ^ e → iv.Contains (c * 10 ^ e)) :
    iv.Contains (iv.search n d).toRat := by
  fun_induction iv.search n d with
  | case1 d e a b hab lo h17 =>
    -- seventeen digits: the nearer candidate, half a step from the value at most
    obtain ⟨hl, hh⟩ := Interval.floor_spec hden e
    rw [hab] at hl hh
    obtain ⟨-, hc1, hc2⟩ := Interval.nearer_spec hden hl hh
    exact hnear e (by omega) _ hc1 hc2
  | case2 d e a b hab lo inLo inHi h17 hboth =>
    rw [Bool.and_eq_true] at hboth
    obtain ⟨hl, hh⟩ := Interval.floor_spec hden e
    rw [hab] at hl hh
    rcases (Interval.nearer_spec hden hl hh).1 with hc | hc
    · rw [Decimal.toRat, hc]
      exact (Interval.admits_iff hden lo e).1 hboth.1
    · rw [Decimal.toRat, hc]
      exact_mod_cast (Interval.admits_iff hden (lo + 1) e).1 hboth.2
  | case3 d e a b hab lo inLo inHi h17 hboth hlo =>
    exact (Interval.admits_iff hden lo e).1 hlo
  | case4 d e a b hab lo inLo inHi h17 hboth hlo hhi =>
    rw [Decimal.toRat]
    exact_mod_cast (Interval.admits_iff hden (lo + 1) e).1 hhi
  | case5 d e a b hab lo inLo inHi h17 hboth hlo hhi ih => exact ih

theorem PosNormal.interval_value_pos {x : Binary64} (hx : x.PosNormal) : 0 < x.interval.value := by
  have hv := interval_value_div x
  have hd : (0 : ℚ) < x.interval.den := by exact_mod_cast interval_den_pos x
  have hM : (0 : ℚ) < x.significand := by exact_mod_cast (show 0 < x.significand by
    have := hx.le_significand; omega)
  have : (0 : ℚ) < x.interval.value / x.interval.den := by
    rw [hv]
    positivity
  exact_mod_cast (div_pos_iff_of_pos_right hd).1 this

/-- Seventeen significant digits always suffice: a step of `10^e` at or below `10^(n - 17)`,
where `10^(n-1)` is the value's leading power of ten, is shorter than the half-width of the
interval on either side, since `2^53 < 10^16`. So a candidate half a step from the value at most
lies inside it. -/
theorem PosNormal.contains_of_near {x : Binary64} (hx : x.PosNormal) {e : ℤ}
    (he : e ≤ x.interval.scale - 17) (c : ℕ)
    (h1 : ((c : ℚ) - 1 / 2) * 10 ^ e ≤ x.interval.value / x.interval.den)
    (h2 : (x.interval.value : ℚ) / x.interval.den ≤ (c + 1 / 2) * 10 ^ e) :
    x.interval.Contains (c * 10 ^ e) := by
  have hM1 := hx.le_significand
  have hM2 : (x.significand : ℚ) + 1 ≤ 2 ^ 53 := by exact_mod_cast hx.significand_lt
  have hp : (0 : ℚ) < 2 ^ x.exponent := zpow_pos two_pos _
  have ht : (0 : ℚ) < 10 ^ e := zpow_pos (by norm_num) _
  obtain ⟨hs, -⟩ := Interval.scale_spec (interval_den_pos x) hx.interval_value_pos
  rw [interval_value_div] at h1 h2 hs
  have hspace : (10 : ℚ) ^ e * 10 ^ 16 ≤ x.significand * 2 ^ x.exponent := by
    calc (10 : ℚ) ^ e * 10 ^ 16 = 10 ^ (e + 16) := by
          rw [zpow_add₀ (by norm_num)]
          norm_num
      _ ≤ 10 ^ (x.interval.scale - 1) := zpow_le_zpow_right₀ (by norm_num) (by omega)
      _ ≤ _ := hs
  have hMp : (x.significand : ℚ) * 2 ^ x.exponent ≤ (2 ^ 53 - 1) * 2 ^ x.exponent := by
    apply mul_le_mul_of_nonneg_right (by linarith) hp.le
  -- the step is shorter than the unit `2^q`
  have hstep : (10 : ℚ) ^ e < 2 ^ x.exponent := by nlinarith
  apply Interval.contains_of_lt
  · rw [interval_low_div x (by omega)]
    split
    · -- the least of its binade: the step is shorter than half the unit
      rename_i hn
      have hM : (x.significand : ℚ) = 2 ^ 52 := by
        have := hx.significand_eq
        rw [hn.1] at this
        exact_mod_cast this
      rw [hM] at hspace h2
      nlinarith
    · nlinarith
  · rw [interval_high_div]
    nlinarith

/-- The shortest decimal of a positive normal value lies in its rounding interval. -/
theorem PosNormal.shortest_contains {x : Binary64} (hx : x.PosNormal) :
    x.interval.Contains x.shortest.toRat := by
  rw [shortest, Decimal.normalize_toRat]
  exact Interval.search_contains (interval_den_pos x) _ 1 fun e he c h1 h2 =>
    hx.contains_of_near he c h1 h2

end Binary64

end ExprFront
