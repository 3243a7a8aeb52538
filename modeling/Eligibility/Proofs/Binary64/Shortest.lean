/-
The printed digits of a magnitude read back to it, with either sign and for either way of deciding
between two equally near decimals: a decimal that the search takes from a grid has been read back, the
exact decimal behind the search stands for the value itself, and zeros at the end do not count.
-/
import Eligibility.Binary64.Shortest
import Eligibility.Proofs.Binary64.Rounding

namespace Eligibility

theorem Decimal.trimZeros_size (d : Decimal) : d.trimZeros.size = d.size := by
  fun_induction trimZeros d with
  | case1 d h ih =>
    -- a zero at the end goes over into the exponent
    have hc : d.coefficient = 10 * (d.coefficient / 10) := by omega
    rw [ih]
    unfold size
    conv_rhs => rw [hc]
    rw [zpow_add_one₀ (by norm_num)]
    push_cast
    ring
  | case2 => rfl

namespace Magnitude

/-- The exact decimal of a magnitude has the value of the magnitude. -/
theorem exactDecimal_size (m : Magnitude) : m.exactDecimal.size = m.value := by
  unfold exactDecimal Decimal.size value
  simp only [Nat.shiftLeft_eq, Nat.pow_eq]
  -- a whole number has no digits behind the point; any other has as many as the exponent says
  rcases Int.le_total 0 m.exponent with h | h
  · obtain ⟨k, hk⟩ := Int.eq_ofNat_of_zero_le h
    simp [hk]
  · obtain ⟨k, hk⟩ : ∃ k : ℕ, m.exponent = -k := ⟨(-m.exponent).toNat, by omega⟩
    rw [hk, min_eq_left (by omega), zpow_neg, zpow_neg, zpow_natCast, zpow_natCast,
      show (10 : ℚ) ^ k = 2 ^ k * 5 ^ k by rw [← mul_pow]; norm_num]
    simp
    field_simp

theorem readsBack_iff {m : Magnitude} {d : Decimal} :
    m.readsBack d = true ↔ ∃ negative, Binary64.ofDecimal { d with negative := false } = .finite negative m := by
  unfold readsBack
  cases Binary64.ofDecimal { d with negative := false } <;> simp

theorem nearest_of_readsBack {m : Magnitude} {d : Decimal} (h : m.readsBack d = true) :
    Binary64.nearest false d.size = .finite false m := by
  obtain ⟨negative, hm⟩ := readsBack_iff.1 h
  rw [Binary64.ofDecimal_eq_nearest] at hm
  exact Binary64.nearest_sign (Binary64.size_nonneg d) hm false

/-- A decimal is taken from a grid only if it was read back. -/
theorem readsBack_of_onGrid? {tie : Tie} {m : Magnitude} {e : ℤ} {d : Decimal} (h : onGrid? tie m e = some d) :
    m.readsBack d = true := by
  unfold onGrid? at h
  dsimp only at h
  split at h
  · rename_i hb ha
    cases h
    split
    · exact ha
    · exact hb
  · rename_i hb _
    cases h
    exact hb
  · rename_i _ ha
    cases h
    exact ha
  · cases h

/-- Whatever the search ends with, the magnitude is the nearest to it. -/
theorem nearest_search (tie : Tie) (m : Magnitude) (e : ℤ) (steps : ℕ) :
    Binary64.nearest false (search tie m e steps).size = .finite false m := by
  induction steps generalizing e with
  | zero =>
    rw [search, exactDecimal_size]
    exact Binary64.nearest_value false m
  | succ steps ih =>
    rw [search]
    cases h : onGrid? tie m e with
    | none => exact ih _
    | some d => exact nearest_of_readsBack (readsBack_of_onGrid? h)

theorem nearest_shortest (tie : Tie) (m : Magnitude) :
    Binary64.nearest false (m.shortest tie).size = .finite false m := by
  unfold shortest
  split
  · rename_i h
    rw [Binary64.eq_zero_of_significand h, Binary64.size_of_coefficient rfl]
    rfl
  · rw [Decimal.trimZeros_size]
    exact nearest_search tie m _ 17

/-- What is printed reads back. -/
theorem ofDecimal_shortest (tie : Tie) (negative : Bool) (m : Magnitude) :
    Binary64.ofDecimal { m.shortest tie with negative } = .finite negative m := by
  rw [Binary64.ofDecimal_eq_nearest]
  exact Binary64.nearest_sign (Binary64.size_nonneg _) (nearest_shortest tie m) negative

end Magnitude
end Eligibility
