/-
Rounding to double precision as a function of the exact value (Mathlib's `ℚ`): it depends on the value
alone and not on the ratio or the decimal that stands for it, values from 2^1024 on are infinite, values
below 2^1023 finite and below 2^-1076 zero, and a value of the format is its own rounding.
-/
import Eligibility.Binary64.Rounding
import Mathlib.Algebra.Order.Field.Power
import Mathlib.Data.Int.Log
import Mathlib.Data.Rat.Floor
import Mathlib.Tactic.FieldSimp
import Mathlib.Tactic.Linarith
import Mathlib.Tactic.NormNum
import Mathlib.Tactic.Positivity
import Mathlib.Tactic.Ring

namespace Eligibility

/-! ## Exact values -/

/-- The exact value of a magnitude. -/
def Magnitude.value (m : Magnitude) : ℚ := m.significand * (2 : ℚ) ^ m.exponent

/-- The exact value of a decimal without its sign. -/
def Decimal.size (d : Decimal) : ℚ := d.coefficient * (10 : ℚ) ^ d.exponent

theorem zpow_eq_div (b : ℚ) (e : ℤ) : b ^ e = b ^ e.toNat / b ^ (-e).toNat := by
  rcases Int.le_total 0 e with h | h
  · obtain ⟨n, rfl⟩ := Int.eq_ofNat_of_zero_le h
    simp
  · obtain ⟨n, hn⟩ := Int.eq_ofNat_of_zero_le (Int.neg_nonneg_of_nonpos h)
    obtain rfl : e = -n := by omega
    simp

/-- A value measured in units of a power of two, with both sides whole. -/
theorem mul_zpow_le_div_iff (a n : ℕ) {d : ℕ} (hd : 0 < d) (e : ℤ) :
    (a : ℚ) * 2 ^ e ≤ n / d ↔ a * (d * 2 ^ e.toNat) ≤ n * 2 ^ (-e).toNat := by
  have hd' : (0 : ℚ) < d := by exact_mod_cast hd
  rw [zpow_eq_div, mul_div_assoc', div_le_div_iff₀ (by positivity) hd', ← Nat.cast_le (α := ℚ)]
  push_cast
  constructor <;> intro h <;> linarith

theorem div_eq_mul_zpow_iff (a n : ℕ) {d : ℕ} (hd : 0 < d) (e : ℤ) :
    (n : ℚ) / d = a * 2 ^ e ↔ n * 2 ^ (-e).toNat = a * (d * 2 ^ e.toNat) := by
  have hd' : (d : ℚ) ≠ 0 := by exact_mod_cast hd.ne'
  rw [zpow_eq_div, mul_div_assoc', div_eq_div_iff hd' (by positivity), ← Nat.cast_inj (R := ℚ)]
  push_cast
  constructor <;> intro h <;> linarith

/-! ## Division to the nearest whole number -/

theorem roundDiv_mul_mul {k : ℕ} (hk : 0 < k) (n d : ℕ) : roundDiv (k * n) (k * d) = roundDiv n d := by
  unfold roundDiv
  dsimp only
  rw [Nat.mul_div_mul_left _ _ hk, Nat.mul_mod_mul_left, Nat.mul_left_comm 2 k]
  simp only [Nat.mul_lt_mul_left hk]

theorem roundDiv_mul (a : ℕ) {d : ℕ} (hd : 0 < d) : roundDiv (a * d) d = a := by
  simp [roundDiv, Nat.mul_div_cancel _ hd, hd]

theorem le_roundDiv {a n d : ℕ} (hd : 0 < d) (h : a * d ≤ n) : a ≤ roundDiv n d := by
  have := (Nat.le_div_iff_mul_le hd).2 h
  unfold roundDiv
  dsimp only
  split
  · exact this
  · split <;> omega

theorem roundDiv_eq_zero {n d : ℕ} (h : 2 * n < d) : roundDiv n d = 0 := by
  simp [roundDiv, Nat.div_eq_of_lt (show n < d by omega), Nat.mod_eq_of_lt (show n < d by omega), h]

theorem roundDiv_le {a n d : ℕ} (hd : 0 < d) (h : n < a * d) : roundDiv n d ≤ a := by
  have := (Nat.div_lt_iff_lt_mul hd).2 h
  unfold roundDiv
  dsimp only
  split
  · omega
  · split <;> omega

/-! ## The exponent of a ratio -/

theorem zpow_two_pos (e : ℤ) : (0 : ℚ) < 2 ^ e := zpow_pos (by norm_num) e

theorem zpow_two_le_iff {q : ℚ} (hq : 0 < q) {e : ℤ} : (2 : ℚ) ^ e ≤ q ↔ e ≤ Int.log 2 q := by
  simpa using Int.zpow_le_iff_le_log (b := 2) (x := e) (by decide) hq

theorem lt_zpow_two_iff {q : ℚ} (hq : 0 < q) {e : ℤ} : q < (2 : ℚ) ^ e ↔ Int.log 2 q < e := by
  rw [← not_le, ← not_le, zpow_two_le_iff hq]

theorem log2_bounds {n : ℕ} (hn : 0 < n) : (2 : ℚ) ^ (n.log2 : ℤ) ≤ n ∧ (n : ℚ) < 2 ^ ((n.log2 : ℤ) + 1) := by
  constructor
  · rw [zpow_natCast]
    exact_mod_cast Nat.log2_self_le hn.ne'
  · rw [← Nat.cast_succ, zpow_natCast]
    exact_mod_cast Nat.lt_log2_self (n := n)

theorem div_log2_bounds {n d : ℕ} (hn : 0 < n) (hd : 0 < d) :
    (2 : ℚ) ^ ((n.log2 : ℤ) - d.log2 - 1) ≤ n / d ∧ (n : ℚ) / d < 2 ^ ((n.log2 : ℤ) - d.log2 + 1) := by
  obtain ⟨n1, n2⟩ := log2_bounds hn
  obtain ⟨d1, d2⟩ := log2_bounds hd
  have hd' : (0 : ℚ) < d := by exact_mod_cast hd
  constructor
  · rw [show (n.log2 : ℤ) - d.log2 - 1 = n.log2 - (d.log2 + 1) by ring, zpow_sub₀ two_ne_zero]
    exact div_le_div₀ (by positivity) n1 hd' d2.le
  · rw [show (n.log2 : ℤ) - d.log2 + 1 = n.log2 + 1 - d.log2 by ring, zpow_sub₀ two_ne_zero]
    exact div_lt_div₀ n2 d1 (zpow_two_pos _).le (zpow_two_pos _)

theorem floorLogTwo_eq_log {n d : ℕ} (hn : 0 < n) (hd : 0 < d) : floorLogTwo n d = Int.log 2 ((n : ℚ) / d) := by
  have pos : (0 : ℚ) < n / d := by positivity
  obtain ⟨lo, hi⟩ := div_log2_bounds hn hd
  rw [zpow_two_le_iff pos] at lo
  rw [lt_zpow_two_iff pos] at hi
  have test := mul_zpow_le_div_iff 1 n hd ((n.log2 : ℤ) - d.log2)
  rw [Nat.cast_one, one_mul, one_mul, zpow_two_le_iff pos] at test
  unfold floorLogTwo
  simp only [Nat.shiftLeft_eq]
  split
  · rename_i h
    have := test.2 h
    omega
  · rename_i h
    have := mt test.1 h
    omega

/-! ## Rounding -/

namespace Binary64

/-- The number nearest to an exact value, with a sign put before it. -/
def nearest (negative : Bool) (q : ℚ) : Binary64 := ofRatio negative q.num.natAbs q.den

theorem ofRatio_zero (negative : Bool) (d : ℕ) : ofRatio negative 0 d = zero negative := rfl

theorem ofRatio_pos (negative : Bool) {n d : ℕ} (hn : 0 < n) (hd : 0 < d) {e : ℤ}
    (he : max (Int.log 2 ((n : ℚ) / d) - 52) (-1074) = e) :
    ofRatio negative n d =
      ofRank negative ((e + 1074).toNat * 2 ^ 52 + roundDiv (n * 2 ^ (-e).toNat) (d * 2 ^ e.toNat)) := by
  unfold ofRatio
  rw [if_neg hn.ne', floorLogTwo_eq_log hn hd, he]
  simp only [Nat.shiftLeft_eq]

theorem ofRatio_mul_mul (negative : Bool) {k d : ℕ} (hk : 0 < k) (n : ℕ) (hd : 0 < d) :
    ofRatio negative (k * n) (k * d) = ofRatio negative n d := by
  rcases Nat.eq_zero_or_pos n with rfl | hn
  · rw [Nat.mul_zero, ofRatio_zero, ofRatio_zero]
  · have hk' : (k : ℚ) ≠ 0 := by exact_mod_cast hk.ne'
    have same : ((k * n : ℕ) : ℚ) / (k * d : ℕ) = n / d := by
      push_cast
      exact mul_div_mul_left _ _ hk'
    rw [ofRatio_pos negative (Nat.mul_pos hk hn) (Nat.mul_pos hk hd) rfl, ofRatio_pos negative hn hd rfl, same,
      Nat.mul_assoc, Nat.mul_assoc, roundDiv_mul_mul hk]

/-- Rounding depends on the value of a ratio only. -/
theorem ofRatio_eq_nearest (negative : Bool) (n : ℕ) {d : ℕ} (hd : 0 < d) :
    ofRatio negative n d = nearest negative (n / d) := by
  have hd' : (d : ℚ) ≠ 0 := by exact_mod_cast hd.ne'
  generalize hq : (n : ℚ) / d = q
  have hnum : (q.num.natAbs : ℤ) = q.num := Int.natAbs_of_nonneg (Rat.num_nonneg.2 (hq ▸ by positivity))
  have cross : d * q.num.natAbs = q.den * n := by
    have hcross : (d : ℚ) * q.num = q.den * n := by
      rw [← Rat.mul_den_eq_num, ← mul_assoc, mul_comm _ (q.den : ℚ), ← hq, mul_div_cancel₀ _ hd']
    rw [← hnum] at hcross
    exact_mod_cast hcross
  unfold nearest
  rw [← ofRatio_mul_mul negative hd q.num.natAbs q.den_pos, cross, Nat.mul_comm d,
    ofRatio_mul_mul negative q.den_pos n hd]

theorem nearest_zero (negative : Bool) : nearest negative 0 = zero negative := rfl

/-- A positive value as the ratio that it is rounded from. -/
theorem exists_ratio {q : ℚ} (hq : 0 < q) :
    ∃ n d : ℕ, 0 < n ∧ 0 < d ∧ (n : ℚ) / d = q ∧ ∀ negative, nearest negative q = ofRatio negative n d := by
  have hnum : 0 < q.num := Rat.num_pos.2 hq
  refine ⟨q.num.natAbs, q.den, Int.natAbs_pos.2 hnum.ne', q.den_pos, ?_, fun _ => rfl⟩
  rw [Nat.cast_natAbs, abs_of_pos hnum, Rat.num_div_den]

theorem ofRank_eq_finite {negative sign : Bool} {rank : ℕ} {m : Magnitude} :
    ofRank negative rank = .finite sign m ↔ negative = sign ∧ Magnitude.ofRank? rank = some m := by
  unfold ofRank
  cases Magnitude.ofRank? rank <;> simp

theorem ofRank_of_count_le (negative : Bool) {rank : ℕ} (h : Magnitude.count ≤ rank) :
    ofRank negative rank = .infinite negative := by
  have low : ¬ rank < 1 <<< 53 := by unfold Magnitude.count at h; omega
  have beyond : Magnitude.ofRank? rank = none := by
    unfold Magnitude.ofRank?
    rw [dif_neg low, dif_neg (Nat.not_lt.2 h)]
  unfold ofRank
  rw [beyond]

theorem isFinite_ofRank (negative : Bool) {rank : ℕ} (h : rank < Magnitude.count) :
    (ofRank negative rank).isFinite = true := by
  obtain ⟨m, hm⟩ : ∃ m, Magnitude.ofRank? rank = some m := by
    unfold Magnitude.ofRank?
    by_cases low : rank < 1 <<< 53
    · exact ⟨_, dif_pos low⟩
    · exact ⟨_, (dif_neg low).trans (dif_pos h)⟩
  rw [ofRank, hm]
  rfl

theorem nearest_of_overflow (negative : Bool) {q : ℚ} (h : (2 : ℚ) ^ (1024 : ℤ) ≤ q) :
    nearest negative q = .infinite negative := by
  have hq : 0 < q := lt_of_lt_of_le (zpow_two_pos _) h
  have hlog := (zpow_two_le_iff hq).1 h
  obtain ⟨n, d, hn, hd, hv, hnear⟩ := exists_ratio hq
  obtain ⟨e, he⟩ : ∃ e, Int.log 2 q - 52 = e := ⟨_, rfl⟩
  rw [hnear, ofRatio_pos negative hn hd (e := e) (by rw [hv]; omega)]
  -- in units of `2 ^ e` the value is at least `2 ^ 52`
  have units : (2 : ℚ) ^ (Int.log 2 q) ≤ n / d := hv ▸ (zpow_two_le_iff hq).2 le_rfl
  have split : (2 : ℚ) ^ (Int.log 2 q) = ((2 ^ 52 : ℕ) : ℚ) * 2 ^ e := by
    rw [show Int.log 2 q = 52 + e by omega, zpow_add₀ two_ne_zero]
    norm_num
  have := le_roundDiv (by positivity) ((mul_zpow_le_div_iff _ n hd e).1 (split ▸ units))
  apply ofRank_of_count_le
  unfold Magnitude.count
  omega

theorem nearest_of_underflow (negative : Bool) {q : ℚ} (hq : 0 < q) (h : q < (2 : ℚ) ^ (-1076 : ℤ)) :
    nearest negative q = zero negative := by
  have hlog := (lt_zpow_two_iff hq).1 h
  obtain ⟨n, d, hn, hd, hv, hnear⟩ := exists_ratio hq
  rw [hnear, ofRatio_pos negative hn hd (e := -1074) (by rw [hv]; omega)]
  have small : ¬ ((1 : ℕ) : ℚ) * 2 ^ (-1076 : ℤ) ≤ n / d := by rw [hv, Nat.cast_one, one_mul]; exact not_le.2 h
  rw [mul_zpow_le_div_iff 1 n hd, not_le] at small
  have shift : (-(-1076 : ℤ)).toNat = (-(-1074 : ℤ)).toNat + 2 := by decide
  have whole : (-1076 : ℤ).toNat = (-1074 : ℤ).toNat := by decide
  rw [shift, whole, pow_add, ← Nat.mul_assoc, Nat.one_mul] at small
  rw [roundDiv_eq_zero (by omega)]
  rfl

/-- A value below half the end of the range is rounded to a finite number. -/
theorem isFinite_nearest (negative : Bool) {q : ℚ} (hq : 0 ≤ q) (h : q < (2 : ℚ) ^ (1023 : ℤ)) :
    (nearest negative q).isFinite = true := by
  rcases hq.eq_or_lt with rfl | pos
  · rw [nearest_zero]
    rfl
  · have hlog := (lt_zpow_two_iff pos).1 h
    obtain ⟨n, d, hn, hd, hv, hnear⟩ := exists_ratio pos
    obtain ⟨e, he⟩ : ∃ e, max (Int.log 2 q - 52) (-1074) = e := ⟨_, rfl⟩
    rw [hnear, ofRatio_pos negative hn hd (e := e) (by rw [hv, he])]
    -- in units of `2 ^ e` the value is less than `2 ^ 53`
    have units : ¬ ((2 ^ 53 : ℕ) : ℚ) * 2 ^ e ≤ n / d := by
      rw [hv, not_le, show ((2 ^ 53 : ℕ) : ℚ) = 2 ^ (53 : ℤ) by norm_num, ← zpow_add₀ two_ne_zero, lt_zpow_two_iff pos]
      omega
    rw [mul_zpow_le_div_iff _ n hd, not_le] at units
    have := roundDiv_le (by positivity) units
    apply isFinite_ofRank
    unfold Magnitude.count
    omega

theorem ofRank_ne_nan (negative : Bool) (rank : ℕ) : ofRank negative rank ≠ .nan := by
  unfold ofRank
  split <;> simp

theorem nearest_ne_nan (negative : Bool) (q : ℚ) : nearest negative q ≠ .nan := by
  unfold nearest ofRatio
  split
  · simp [zero]
  · exact ofRank_ne_nan _ _

/-! ## Values of the format -/

theorem eq_zero_of_significand {m : Magnitude} (h : m.significand = 0) : m = .zero := by
  obtain ⟨s, e, hs, hl, hg, hf⟩ := m
  obtain rfl : s = 0 := h
  obtain rfl : e = -1074 := by omega
  rfl

theorem rank_eq (m : Magnitude) : m.rank = (m.exponent + 1074).toNat * 2 ^ 52 + m.significand := by
  rw [Magnitude.rank, Nat.shiftLeft_eq]

/-- The exponent of a magnitude is the one that rounding takes for its value. -/
theorem exponent_of_value {m : Magnitude} (h : m.significand ≠ 0) :
    max (Int.log 2 m.value - 52) (-1074) = m.exponent := by
  have hs : (1 : ℚ) ≤ m.significand := by exact_mod_cast Nat.one_le_iff_ne_zero.2 h
  have pos : 0 < m.value := mul_pos (by linarith) (zpow_two_pos _)
  have hi : m.value < 2 ^ (53 + m.exponent) := by
    rw [zpow_add₀ two_ne_zero]
    exact mul_lt_mul_of_pos_right (by exact_mod_cast m.significand_lt) (zpow_two_pos _)
  rw [lt_zpow_two_iff pos] at hi
  rcases m.full with he | hfull
  · rw [he] at hi ⊢
    omega
  · have lo : (2 : ℚ) ^ (52 + m.exponent) ≤ m.value := by
      rw [zpow_add₀ two_ne_zero]
      exact mul_le_mul_of_nonneg_right (by exact_mod_cast hfull) (zpow_two_pos _).le
    rw [zpow_two_le_iff pos] at lo
    have := m.least_le
    omega

/-- A value of the format is its own rounding. -/
theorem nearest_value (negative : Bool) (m : Magnitude) : nearest negative m.value = .finite negative m := by
  by_cases h : m.significand = 0
  · rw [eq_zero_of_significand h]
    show nearest negative (((0 : ℕ) : ℚ) * _) = _
    rw [Nat.cast_zero, zero_mul]
    rfl
  · have pos : 0 < m.value := mul_pos (by exact_mod_cast Nat.pos_of_ne_zero h) (zpow_two_pos _)
    obtain ⟨n, d, hn, hd, hv, hnear⟩ := exists_ratio pos
    have units := (div_eq_mul_zpow_iff m.significand n hd m.exponent).1 hv
    rw [hnear, ofRatio_pos negative hn hd (hv ▸ exponent_of_value h), units, roundDiv_mul _ (by positivity),
      ← rank_eq]
    exact ofRank_eq_finite.2 ⟨rfl, Magnitude.ofRank?_rank m⟩

/-- The magnitude does not depend on the sign. -/
theorem nearest_sign {q : ℚ} (hq : 0 ≤ q) {negative sign : Bool} {m : Magnitude}
    (h : nearest negative q = .finite sign m) (negative' : Bool) : nearest negative' q = .finite negative' m := by
  rcases hq.eq_or_lt with rfl | hq
  · rw [nearest_zero] at h ⊢
    cases h
    rfl
  · obtain ⟨n, d, hn, hd, hv, hnear⟩ := exists_ratio hq
    rw [hnear, ofRatio_pos _ hn hd rfl, ofRank_eq_finite] at h ⊢
    exact ⟨rfl, h.2⟩

/-! ## Decimals -/

theorem size_nonneg (d : Decimal) : 0 ≤ d.size := by unfold Decimal.size; positivity

theorem size_of_coefficient {d : Decimal} (h : d.coefficient = 0) : d.size = 0 := by
  unfold Decimal.size
  rw [h, Nat.cast_zero, zero_mul]

theorem two_pow_le_size {d : Decimal} (hc : d.coefficient ≠ 0) (he : 400 < d.exponent) :
    (2 : ℚ) ^ (1024 : ℤ) ≤ d.size := by
  have hc' : (1 : ℚ) ≤ d.coefficient := by exact_mod_cast Nat.one_le_iff_ne_zero.2 hc
  calc (2 : ℚ) ^ (1024 : ℤ) ≤ 8 ^ (400 : ℤ) := by
        rw [show (8 : ℚ) = 2 ^ (3 : ℤ) by norm_num, ← zpow_mul]
        exact zpow_le_zpow_right₀ (by norm_num) (by norm_num)
    _ ≤ 10 ^ (400 : ℤ) := zpow_le_zpow_left₀ (by norm_num) (by norm_num) (by norm_num)
    _ ≤ 10 ^ d.exponent := zpow_le_zpow_right₀ (by norm_num) he.le
    _ ≤ d.coefficient * 10 ^ d.exponent := le_mul_of_one_le_left (by positivity) hc'

theorem size_lt_two_pow {d : Decimal} (hc : d.coefficient ≠ 0)
    (he : (d.coefficient.log2 : ℤ) + 1 + 3 * d.exponent < -1076) : d.size < (2 : ℚ) ^ (-1076 : ℤ) := by
  have hlog := (log2_bounds (Nat.pos_of_ne_zero hc)).2
  -- a negative power of ten is at most the same power of eight
  have hpow : (10 : ℚ) ^ d.exponent ≤ 2 ^ (3 * d.exponent) := by
    obtain ⟨k, hk⟩ : ∃ k : ℕ, d.exponent = -k := ⟨(-d.exponent).toNat, by omega⟩
    rw [zpow_mul, hk, zpow_neg, zpow_neg, zpow_natCast, zpow_natCast]
    exact inv_anti₀ (by positivity) (pow_le_pow_left₀ (by norm_num) (by norm_num) k)
  calc d.size < 2 ^ ((d.coefficient.log2 : ℤ) + 1) * 2 ^ (3 * d.exponent) :=
        mul_lt_mul hlog hpow (by positivity) (zpow_two_pos _).le
    _ = 2 ^ ((d.coefficient.log2 : ℤ) + 1 + 3 * d.exponent) := (zpow_add₀ two_ne_zero _ _).symm
    _ ≤ 2 ^ (-1076 : ℤ) := zpow_le_zpow_right₀ (by norm_num) he.le

/-- The shortcuts for powers of ten far outside the range decide as the rounding does. -/
theorem ofDecimal_eq_nearest (d : Decimal) : ofDecimal d = nearest d.negative d.size := by
  unfold ofDecimal
  split
  · rename_i hc
    rw [size_of_coefficient hc, nearest_zero]
  · rename_i hc
    have pos : 0 < d.size := mul_pos (by exact_mod_cast Nat.pos_of_ne_zero hc) (by positivity)
    split
    · rename_i he
      exact (nearest_of_overflow _ (two_pow_le_size hc he)).symm
    · split
      · rename_i he
        exact (nearest_of_underflow _ pos (size_lt_two_pow hc he)).symm
      · simp only [Nat.pow_eq]
        rw [ofRatio_eq_nearest _ _ (by positivity)]
        congr 1
        unfold Decimal.size
        rw [zpow_eq_div]
        push_cast
        exact mul_div_assoc _ _ _

end Binary64
end Eligibility
