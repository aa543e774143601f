import BuildScript.Number.Shortest
import BuildScript.Proofs.Number.Decimal
import Mathlib.Algebra.Order.Field.Power
import Mathlib.Data.Rat.Cast.Order
import Mathlib.Tactic.FieldSimp
import Mathlib.Tactic.Linarith
import Mathlib.Tactic.Positivity
import Mathlib.Tactic.Ring

namespace BuildScript

namespace Decimal

variable {d : Decimal}

def value (d : Decimal) : ℚ := d.digits * 10 ^ d.exponent

theorem value_strip (d : Decimal) : d.strip.value = d.value := by
  by_cases h : d.digits = 0
  · have hstrip : d.strip = ⟨0, 0⟩ := by rw [strip, if_pos h]
    simp [value, hstrip, h]
  · obtain ⟨k, hdigits, hexp⟩ := exists_strip h
    rw [value, value, hexp, hdigits, zpow_add₀ (by norm_num), zpow_natCast]
    push_cast
    ring

theorem value_pos (h : d.digits ≠ 0) : 0 < d.value := by
  have hdigits : (0 : ℚ) < d.digits := by exact_mod_cast Nat.pos_of_ne_zero h
  exact mul_pos hdigits (zpow_pos (by norm_num) _)

/-- The first digit stands below the power of ten that the length gives, and not below the one
before it. -/
theorem value_bounds (h : d.digits ≠ 0) :
    10 ^ (d.length + d.exponent - 1) ≤ d.value ∧ d.value < 10 ^ (d.length + d.exponent) := by
  have hlen : 0 < d.length := Nat.length_toDigits_pos
  have hupper : d.digits < 10 ^ d.length :=
    (Nat.length_toDigits_le_iff (by decide) hlen).mp le_rfl
  have hlower : 10 ^ (d.length - 1) ≤ d.digits := by
    by_cases hone : d.length = 1
    · rw [hone]
      exact Nat.one_le_iff_ne_zero.mpr h
    · refine Nat.le_of_not_lt fun hlt ↦ ?_
      have hle := (Nat.length_toDigits_le_iff (by decide) (by omega)).mpr hlt
      have : d.length ≤ d.length - 1 := hle
      omega
  have hpos : (0 : ℚ) < 10 ^ d.exponent := zpow_pos (by norm_num) _
  constructor
  · have hsplit : (d.length : ℤ) + d.exponent - 1 = (d.length - 1 : ℕ) + d.exponent := by omega
    rw [hsplit, zpow_add₀ (by norm_num), zpow_natCast]
    exact mul_le_mul_of_nonneg_right (by exact_mod_cast hlower) hpos.le
  · rw [zpow_add₀ (by norm_num), zpow_natCast]
    exact mul_lt_mul_of_pos_right (by exact_mod_cast hupper) hpos

end Decimal

namespace Binary64

variable {x : Binary64} {num den n : ℕ} {unit : ℤ} {d : Decimal}

def value (x : Binary64) : ℚ := x.significand * 2 ^ x.exponent

theorem value_toDecimal (x : Binary64) : x.toDecimal.value = x.value := by
  unfold toDecimal value Decimal.value
  split
  · next h =>
    have hexp : x.exponent = (x.exponent.toNat : ℤ) := by omega
    generalize x.exponent.toNat = k at hexp ⊢
    simp [hexp]
  · next h =>
    have hexp : x.exponent = -((-x.exponent).toNat : ℤ) := by omega
    have hten : (10 : ℚ) = 2 * 5 := by norm_num
    generalize (-x.exponent).toNat = k at hexp ⊢
    simp only [hexp, hten, Nat.pow_eq, Nat.cast_mul, Nat.cast_pow, Nat.cast_ofNat, mul_pow,
      zpow_neg, zpow_natCast]
    field_simp

theorem fractionField_lt (x : Binary64) : x.fractionField < 2 ^ 52 := Nat.mod_lt _ (by decide)

theorem exponentField_lt (h : x.isFinite) : x.exponentField < 2047 := by
  have hlt : x.exponentField < 2 ^ 11 := Nat.mod_lt _ (by decide)
  have hne : x.exponentField ≠ 2047 := by simpa [isFinite] using h
  omega

theorem ofMagnitude_fields (x : Binary64) :
    ofMagnitude x.isNegative (x.exponentField * 2 ^ 52 + x.fractionField) = x := by
  have hbits : x.bits.toNat < 2 ^ 64 := x.bits.toNat_lt
  have hsum : x.exponentField * 2 ^ 52 + x.fractionField +
      (if x.isNegative then Nat.pow 2 63 else 0) = x.bits.toNat := by
    simp only [exponentField, fractionField, isNegative, Nat.pow_eq, beq_iff_eq]
    split <;> omega
  rw [ofMagnitude, hsum, UInt64.ofNat_toNat]

/-- What the significand and the exponent of a finite number keep to. -/
structure IsNormal (significand : ℕ) (exponent : ℤ) : Prop where
  lt : significand < 2 ^ 53
  le : 2 ^ 52 ≤ significand ∨ exponent = -1074
  lowest : -1074 ≤ exponent
  highest : exponent ≤ 971

theorem isNormal (h : x.isFinite) : IsNormal x.significand x.exponent := by
  have hfraction := fractionField_lt x
  have hexponent := exponentField_lt h
  constructor <;> simp only [significand, exponent, Nat.pow_eq] <;> split <;> omega

theorem magnitude_eq (x : Binary64) : (x.exponent + 1074).toNat * 2 ^ 52 + x.significand =
    x.exponentField * 2 ^ 52 + x.fractionField := by
  simp only [significand, exponent, Nat.pow_eq]
  split <;> omega

theorem inUnits_pos (h : 0 < den) : 0 < (inUnits num den unit).2 := by
  unfold inUnits
  split
  · exact Nat.mul_pos h (Nat.pow_pos (by decide))
  · exact h

theorem inUnits_value (num : ℕ) (h : 0 < den) (unit : ℤ) :
    ((inUnits num den unit).1 : ℚ) * 2 ^ unit / (inUnits num den unit).2 = num / den := by
  have hden : (den : ℚ) ≠ 0 := by exact_mod_cast Nat.ne_of_gt h
  unfold inUnits
  split
  · have hunit : unit = (unit.toNat : ℤ) := by omega
    generalize unit.toNat = k at hunit ⊢
    simp only [hunit, Nat.pow_eq, Nat.cast_mul, Nat.cast_pow, Nat.cast_ofNat, zpow_natCast]
    field_simp
  · have hunit : unit = -((-unit).toNat : ℤ) := by omega
    generalize (-unit).toNat = k at hunit ⊢
    simp only [hunit, Nat.pow_eq, Nat.cast_mul, Nat.cast_pow, Nat.cast_ofNat, zpow_neg,
      zpow_natCast]
    field_simp

theorem log2_bounds (h : 0 < n) :
    (2 : ℚ) ^ (n.log2 : ℤ) ≤ n ∧ (n : ℚ) < 2 ^ ((n.log2 : ℤ) + 1) := by
  have hlower := Nat.log2_self_le (Nat.ne_of_gt h)
  have hupper := Nat.lt_log2_self (n := n)
  constructor
  · rw [zpow_natCast]
    exact_mod_cast hlower
  · rw [← Nat.cast_add_one, zpow_natCast]
    exact_mod_cast hupper

theorem ratio_bounds (hnum : 0 < num) (hden : 0 < den) :
    (2 : ℚ) ^ ((num.log2 : ℤ) - den.log2 - 1) < num / den ∧
      (num : ℚ) / den < 2 ^ ((num.log2 : ℤ) - den.log2 + 1) := by
  obtain ⟨hnumLower, hnumUpper⟩ := log2_bounds hnum
  obtain ⟨hdenLower, hdenUpper⟩ := log2_bounds hden
  have hpos : (0 : ℚ) < den := by exact_mod_cast hden
  have htwo : (2 : ℚ) ≠ 0 := by norm_num
  have hlower : (0 : ℚ) < 2 ^ ((num.log2 : ℤ) - den.log2 - 1) := zpow_pos (by norm_num) _
  have hupper : (0 : ℚ) < 2 ^ ((num.log2 : ℤ) - den.log2 + 1) := zpow_pos (by norm_num) _
  constructor
  · rw [lt_div_iff₀ hpos]
    calc (2 : ℚ) ^ ((num.log2 : ℤ) - den.log2 - 1) * den
        < 2 ^ ((num.log2 : ℤ) - den.log2 - 1) * 2 ^ ((den.log2 : ℤ) + 1) :=
          mul_lt_mul_of_pos_left hdenUpper hlower
      _ = 2 ^ (num.log2 : ℤ) := by
          rw [← zpow_add₀ htwo]
          congr 1
          omega
      _ ≤ num := hnumLower
  · rw [div_lt_iff₀ hpos]
    calc (num : ℚ) < 2 ^ ((num.log2 : ℤ) + 1) := hnumUpper
      _ = 2 ^ ((num.log2 : ℤ) - den.log2 + 1) * 2 ^ (den.log2 : ℤ) := by
          rw [← zpow_add₀ htwo]
          congr 1
          omega
      _ ≤ 2 ^ ((num.log2 : ℤ) - den.log2 + 1) * den :=
          mul_le_mul_of_nonneg_left hdenLower hupper.le

variable {m : ℕ} {e : ℤ}

theorem IsNormal.value_lt (h : IsNormal m e) : (m : ℚ) * 2 ^ e < 2 ^ (53 + e) := by
  rw [zpow_add₀ (by norm_num)]
  exact mul_lt_mul_of_pos_right (by exact_mod_cast h.lt) (zpow_pos (by norm_num) _)

theorem value_eq_zero_iff : x.value = 0 ↔ x.significand = 0 := by
  have htwo : (2 : ℚ) ^ x.exponent ≠ 0 := zpow_ne_zero _ (by norm_num)
  simp [value, htwo]

theorem ofMagnitude_zero (h : x.significand = 0) : ofMagnitude x.isNegative 0 = x := by
  have hfields : x.exponentField * 2 ^ 52 + x.fractionField = 0 := by
    simp only [significand, Nat.pow_eq] at h
    split at h <;> omega
  have hself := ofMagnitude_fields x
  rwa [hfields] at hself

end Binary64

end BuildScript
