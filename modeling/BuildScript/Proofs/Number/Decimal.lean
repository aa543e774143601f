import BuildScript.Number.Decimal
import Mathlib.Algebra.GroupWithZero.Nat

namespace BuildScript.Decimal

variable {n : Nat} {e : Int} {d : Decimal}

theorem strip_zero (e : Int) : strip ⟨0, e⟩ = ⟨0, 0⟩ := by
  rw [strip]
  simp

theorem strip_shift (n k : Nat) (e : Int) : strip ⟨n * 10 ^ k, e⟩ = strip ⟨n, e + k⟩ := by
  by_cases hn : n = 0
  · subst hn
    rw [Nat.zero_mul, strip_zero, strip_zero]
  · induction k generalizing e with
    | zero => simp
    | succ k ih =>
      have hpow : n * 10 ^ (k + 1) = n * 10 ^ k * 10 := by rw [Nat.pow_succ, Nat.mul_assoc]
      have hpos : n * 10 ^ k * 10 ≠ 0 :=
        Nat.mul_ne_zero (Nat.mul_ne_zero hn (Nat.ne_of_gt (Nat.pow_pos (by decide)))) (by decide)
      have hexp : e + 1 + k = e + (k + 1 : Nat) := by omega
      rw [hpow, strip]
      simp only [hpos, if_false, Nat.mul_mod_left, if_true,
        Nat.mul_div_cancel _ (show 0 < 10 by decide)]
      rw [ih, hexp]

theorem exists_strip (h : d.digits ≠ 0) :
    ∃ k : Nat, d.digits = d.strip.digits * 10 ^ k ∧ d.strip.exponent = d.exponent + k := by
  fun_induction strip d with
  | case1 d hzero => exact absurd hzero h
  | case2 d hne hmod ih =>
    have hdiv : d.digits / 10 ≠ 0 := by omega
    obtain ⟨k, hdigits, hexp⟩ := ih hdiv
    have hdigits' :
        d.digits / 10 = (strip ⟨d.digits / 10, d.exponent + 1⟩).digits * 10 ^ k := hdigits
    refine ⟨k + 1, ?_, ?_⟩
    · rw [Nat.pow_succ, ← Nat.mul_assoc, ← hdigits']
      omega
    · rw [hexp]
      dsimp only
      omega
  | case3 d hne hmod => exact ⟨0, by simp, by simp⟩

theorem strip_strip (d : Decimal) : d.strip.strip = d.strip := by
  fun_induction strip d with
  | case1 d hzero => exact strip_zero 0
  | case2 d hne hmod ih => exact ih
  | case3 d hne hmod => rw [strip, if_neg hne, if_neg hmod]

end BuildScript.Decimal
