import BuildScript.Number.Numeral
import BuildScript.Proofs.Number.Rounding

namespace BuildScript

namespace Binary64

variable {x : Binary64} {num den n r m : ℕ} {unit e : ℤ} {q : ℚ} {d : Decimal} {negative : Bool}

/-- A significand and an exponent of the format, without an upper bound for the exponent. -/
structure InFormat (m : ℕ) (e : ℤ) : Prop where
  lt : m < 2 ^ 53
  lowest : -1074 ≤ e

/-- A magnitude is rounded to `x`: no other number of the format is nearer, and if one is as near,
`x` is the one with the even significand. Beyond the largest finite number the format is thought to
go on, so nothing finite is nearest to what is out of range. -/
structure IsNearest (x : Binary64) (q : ℚ) : Prop where
  finite : x.isFinite
  nearest : ∀ m e, InFormat m e → (m : ℚ) * 2 ^ e ≠ x.value →
    |q - x.value| < |q - m * 2 ^ e| ∨ |q - x.value| = |q - m * 2 ^ e| ∧ x.significand % 2 = 0

/-- A magnitude is `r` when it is rounded to units of `2 ^ unit`, and these are the units of the
format at that place. -/
structure RoundsTo (q : ℚ) (unit : ℤ) (r : ℕ) : Prop where
  lowest : -1074 ≤ unit
  upper : q < 2 ^ (53 + unit)
  lower : 2 ^ (52 + unit) ≤ q ∨ unit = -1074
  near : |q / 2 ^ unit - r| ≤ 1 / 2
  even : |q / 2 ^ unit - r| = 1 / 2 → r % 2 = 0

theorem inFormat (h : x.isFinite) : InFormat x.significand x.exponent :=
  ⟨(isNormal h).lt, (isNormal h).lowest⟩

theorem isNearest_value (h : x.isFinite) : IsNearest x x.value :=
  ⟨h, fun m e _ hne ↦ .inl (by simpa [abs_pos, sub_eq_zero] using hne.symm)⟩

theorem one_le_abs_sub_add (hne : n ≠ r) (t : ℚ) : 1 ≤ |t - n| + |t - r| := by
  have hstep : (1 : ℚ) ≤ |(n : ℚ) - r| := by
    exact_mod_cast Int.one_le_abs (show (n : ℤ) - r ≠ 0 by omega)
  have htriangle := abs_sub_le (n : ℚ) t r
  rw [abs_sub_comm (n : ℚ) t] at htriangle
  linarith

theorem abs_sub_mul_zpow (q t : ℚ) (unit : ℤ) :
    |q - t * 2 ^ unit| = |q / 2 ^ unit - t| * 2 ^ unit := by
  have hpos : (0 : ℚ) < 2 ^ unit := zpow_pos (by norm_num) _
  rw [← abs_of_pos hpos, ← abs_mul, abs_of_pos hpos, sub_mul, div_mul_cancel₀ _ hpos.ne']

theorem abs_sub_roundDiv (num : ℕ) (hden : 0 < den) :
    |(num : ℚ) / den - roundDiv num den| ≤ 1 / 2 ∧
      (|(num : ℚ) / den - roundDiv num den| = 1 / 2 → roundDiv num den % 2 = 0) := by
  have hpos : (0 : ℚ) < den := by exact_mod_cast hden
  have hsplit : ((den * (num / den) + num % den : ℕ) : ℚ) = num := by rw [Nat.div_add_mod]
  push_cast at hsplit
  have hdiv : (num : ℚ) / den = (num / den : ℕ) + (num % den : ℕ) / (den : ℚ) := by
    rw [div_eq_iff hpos.ne', add_mul, div_mul_cancel₀ _ hpos.ne', ← hsplit]
    ring
  have hmod : ((num % den : ℕ) : ℚ) / den < 1 := by
    rw [div_lt_one hpos]
    exact_mod_cast Nat.mod_lt num hden
  have hnonneg : (0 : ℚ) ≤ (num % den : ℕ) / (den : ℚ) := by positivity
  have hle : ((num % den : ℕ) : ℚ) / den ≤ 1 / 2 ↔ 2 * (num % den) ≤ den := by
    rw [div_le_iff₀ hpos, one_div_mul_eq_div, le_div_iff₀ two_pos, mul_comm]
    exact_mod_cast Iff.rfl
  have hge : (1 : ℚ) / 2 ≤ ((num % den : ℕ) : ℚ) / den ↔ den ≤ 2 * (num % den) := by
    rw [le_div_iff₀ hpos, one_div_mul_eq_div, div_le_iff₀ two_pos, mul_comm]
    exact_mod_cast Iff.rfl
  rw [hdiv]
  simp only [roundDiv]
  split
  · next hdown =>
    rw [add_sub_cancel_left, abs_of_nonneg hnonneg]
    refine ⟨hle.mpr (by omega), fun hhalf ↦ ?_⟩
    have := hge.mp hhalf.ge
    omega
  · next hup =>
    have hneg : ((num / den : ℕ) : ℚ) + (num % den : ℕ) / (den : ℚ) - (num / den + 1 : ℕ) =
        (num % den : ℕ) / (den : ℚ) - 1 := by
      push_cast
      ring
    rw [hneg, abs_of_neg (by linarith)]
    have hhalf := hge.mpr (by omega)
    refine ⟨by linarith, fun heq ↦ ?_⟩
    have := hle.mp (by linarith)
    omega

theorem unitOf_spec (hnum : 0 < num) (hden : 0 < den) : -1074 ≤ unitOf num den ∧
    (num : ℚ) / den < 2 ^ (53 + unitOf num den) ∧
      (2 ^ (52 + unitOf num den) ≤ (num : ℚ) / den ∨ unitOf num den = -1074) := by
  obtain ⟨hlower, hupper⟩ := ratio_bounds hnum hden
  have hcount : ∀ unit : ℤ, (inUnits num den unit).2 * Nat.pow 2 53 ≤ (inUnits num den unit).1 ↔
      (2 : ℚ) ^ (53 + unit) ≤ (num : ℚ) / den := by
    intro unit
    have hpos : (0 : ℚ) < (inUnits num den unit).2 := by exact_mod_cast inUnits_pos hden
    rw [← inUnits_value num hden unit, le_div_iff₀ hpos, zpow_add₀ (by norm_num), mul_right_comm,
      mul_le_mul_iff_left₀ (zpow_pos (by norm_num) _), mul_comm]
    norm_cast
  have hmono : ∀ {a b : ℤ}, a ≤ b → (2 : ℚ) ^ a ≤ 2 ^ b := fun h ↦
    zpow_le_zpow_right₀ (by norm_num) h
  unfold unitOf
  simp only [hcount]
  split
  · next hle =>
    refine ⟨by omega, hupper.trans_le (hmono (by omega)), .inl ?_⟩
    exact (hmono (by omega)).trans hle
  · next hlt =>
    refine ⟨by omega, not_le.mp hlt, ?_⟩
    by_cases hlowest : (num.log2 : ℤ) - den.log2 - 53 ≤ -1074
    · exact .inr (by omega)
    · exact .inl ((hmono (by omega)).trans hlower.le)

theorem roundsTo_roundDiv (hnum : 0 < num) (hden : 0 < den) :
    RoundsTo ((num : ℚ) / den) (unitOf num den)
      (roundDiv (inUnits num den (unitOf num den)).1 (inUnits num den (unitOf num den)).2) := by
  obtain ⟨hlowest, hupper, hlower⟩ := unitOf_spec hnum hden
  have hpos : 0 < (inUnits num den (unitOf num den)).2 := inUnits_pos hden
  obtain ⟨hnear, heven⟩ := abs_sub_roundDiv (inUnits num den (unitOf num den)).1 hpos
  have hvalue : (num : ℚ) / den / 2 ^ unitOf num den =
      (inUnits num den (unitOf num den)).1 / (inUnits num den (unitOf num den)).2 := by
    rw [← inUnits_value num hden (unitOf num den), div_right_comm,
      mul_div_cancel_right₀ _ (zpow_ne_zero _ (by norm_num))]
  exact ⟨hlowest, hupper, hlower, hvalue ▸ hnear, hvalue ▸ heven⟩

namespace RoundsTo

variable (h : RoundsTo q unit r)

include h

theorem le : r ≤ 2 ^ 53 := by
  have hnear := abs_le.mp h.near
  have hupper : q / 2 ^ unit < 2 ^ 53 := by
    rw [div_lt_iff₀ (zpow_pos (by norm_num) _)]
    exact h.upper.trans_eq (zpow_add₀ (by norm_num) _ _)
  have hlt : (r : ℚ) < (2 ^ 53 + 1 : ℕ) := by
    push_cast
    linarith
  exact Nat.lt_succ_iff.mp (by exact_mod_cast hlt)

theorem normal : 2 ^ 52 ≤ r ∨ unit = -1074 := by
  refine h.lower.imp_left fun hlower ↦ ?_
  have hnear := abs_le.mp h.near
  have hle : (2 : ℚ) ^ 52 ≤ q / 2 ^ unit := by
    rw [le_div_iff₀ (zpow_pos (by norm_num) _)]
    exact (zpow_add₀ (by norm_num) _ _).ge.trans hlower
  have hlt : ((2 ^ 52 : ℕ) : ℚ) < (r + 1 : ℕ) := by
    push_cast
    linarith
  exact Nat.lt_succ_iff.mp (by exact_mod_cast hlt)

/-- Among the multiples of the unit the rounded one is nearest, or it is even and the other one,
which is as near, is odd. -/
theorem nearest_multiple (hne : n ≠ r) : |q - r * 2 ^ unit| < |q - n * 2 ^ unit| ∨
    |q - r * 2 ^ unit| = |q - n * 2 ^ unit| ∧ r % 2 = 0 ∧ n % 2 = 1 := by
  have hpos : (0 : ℚ) < 2 ^ unit := zpow_pos (by norm_num) _
  have hfar := one_le_abs_sub_add hne (q / 2 ^ unit)
  rw [abs_sub_mul_zpow, abs_sub_mul_zpow, mul_lt_mul_iff_left₀ hpos, mul_left_inj' hpos.ne']
  rcases h.near.lt_or_eq with hnear | hhalf
  · exact .inl (by linarith)
  rcases eq_or_ne |q / 2 ^ unit - n| (1 / 2) with hhalf' | hne'
  · have heven := h.even hhalf
    refine .inr ⟨hhalf.trans hhalf'.symm, heven, ?_⟩
    -- two whole numbers at a half from the same place are next to each other
    have hstep : |(n : ℚ) - r| ≤ 1 := by
      have htriangle := abs_sub_le (n : ℚ) (q / 2 ^ unit) r
      rw [abs_sub_comm (n : ℚ) (q / 2 ^ unit)] at htriangle
      linarith
    have hstep' : |(n : ℤ) - r| ≤ 1 := by exact_mod_cast hstep
    have := abs_le.mp hstep'
    omega
  · refine .inl (hhalf ▸ lt_of_le_of_ne ?_ hne'.symm)
    linarith

/-- No number of the format is nearer, and one that is as near has an odd significand in the same
place. -/
theorem nearest (hf : InFormat m e) (hne : (m : ℚ) * 2 ^ e ≠ r * 2 ^ unit) :
    |q - r * 2 ^ unit| < |q - m * 2 ^ e| ∨
      |q - r * 2 ^ unit| = |q - m * 2 ^ e| ∧ r % 2 = 0 ∧ m % 2 = 1 := by
  rcases le_or_gt unit e with hle | hlt
  · obtain ⟨k, rfl⟩ : ∃ k : ℕ, e = k + unit := ⟨(e - unit).toNat, by omega⟩
    have hvalue : (m : ℚ) * 2 ^ ((k : ℤ) + unit) = (m * 2 ^ k : ℕ) * 2 ^ unit := by
      rw [zpow_add₀ (by norm_num), zpow_natCast]
      push_cast
      ring
    rw [hvalue] at hne ⊢
    refine (h.nearest_multiple fun heq ↦ hne (by rw [heq])).imp_right fun ⟨heq, heven, hodd⟩ ↦
      ⟨heq, heven, ?_⟩
    cases k with
    | zero => simpa using hodd
    | succ k =>
      rw [pow_succ, ← mul_assoc, Nat.mul_mod_left] at hodd
      exact absurd hodd (by decide)
  · -- a finer number lies below the first one in these units
    have hlower : (2 : ℚ) ^ (52 + unit) ≤ q :=
      h.lower.resolve_right fun hlowest ↦ by have := hf.lowest; omega
    have hsplit : (2 : ℚ) ^ (52 + unit) = (2 ^ 52 : ℕ) * 2 ^ unit := by
      rw [zpow_add₀ (by norm_num)]
      norm_cast
    have hbelow : (m : ℚ) * 2 ^ e < 2 ^ (52 + unit) := by
      calc (m : ℚ) * 2 ^ e < 2 ^ (53 : ℤ) * 2 ^ e :=
            mul_lt_mul_of_pos_right (by exact_mod_cast hf.lt) (zpow_pos (by norm_num) _)
        _ = 2 ^ (53 + e) := (zpow_add₀ (by norm_num) _ _).symm
        _ ≤ 2 ^ (52 + unit) := zpow_le_zpow_right₀ (by norm_num) (by omega)
    have hfirst : |q - r * 2 ^ unit| ≤ |q - (2 ^ 52 : ℕ) * 2 ^ unit| := by
      by_cases hr : 2 ^ 52 = r
      · rw [hr]
      · exact (h.nearest_multiple hr).elim le_of_lt fun heq ↦ heq.1.le
    refine .inl (hfirst.trans_lt ?_)
    rw [← hsplit, abs_of_nonneg (by linarith), abs_of_pos (by linarith)]
    linarith

end RoundsTo

theorem eq_of_value_eq (hm : InFormat m e) (hr : InFormat r unit) (hm' : 2 ^ 52 ≤ m ∨ e = -1074)
    (hr' : 2 ^ 52 ≤ r ∨ unit = -1074) (h : (m : ℚ) * 2 ^ e = r * 2 ^ unit) : m = r ∧ e = unit := by
  wlog hle : e ≤ unit generalizing m e r unit
  · obtain ⟨rfl, rfl⟩ := this hr hm hr' hm' h.symm (by omega)
    exact ⟨rfl, rfl⟩
  obtain ⟨k, rfl⟩ : ∃ k : ℕ, unit = k + e := ⟨(unit - e).toNat, by omega⟩
  have hvalue : (m : ℚ) = (r * 2 ^ k : ℕ) := by
    refine mul_right_cancel₀ (zpow_ne_zero e (by norm_num : (2 : ℚ) ≠ 0)) (h.trans ?_)
    rw [zpow_add₀ (by norm_num), zpow_natCast]
    push_cast
    ring
  have hshift : m = r * 2 ^ k := by exact_mod_cast hvalue
  cases k with
  | zero => exact ⟨by simpa using hshift, by simp⟩
  | succ k =>
    have hlt := hm.lt
    have hlowest := hm.lowest
    have hdouble : r * 2 ≤ m := by
      rw [hshift, pow_succ, ← mul_assoc]
      exact Nat.mul_le_mul_right 2 (Nat.le_mul_of_pos_right r (Nat.two_pow_pos k))
    omega

theorem ofMagnitude_spec (negative : Bool) (h : n < 2047 * 2 ^ 52) :
    (ofMagnitude negative n).isNegative = negative ∧ (ofMagnitude negative n).isFinite ∧
      ((ofMagnitude negative n).exponent + 1074).toNat * 2 ^ 52 +
        (ofMagnitude negative n).significand = n := by
  have hbits : (ofMagnitude negative n).bits.toNat =
      n + if negative then Nat.pow 2 63 else 0 := by
    rw [ofMagnitude, UInt64.toNat_ofNat', Nat.mod_eq_of_lt]
    cases negative <;> simp <;> omega
  rw [magnitude_eq]
  simp only [isFinite, isNegative, exponentField, fractionField, hbits]
  cases negative <;> simp <;> omega

namespace RoundsTo

variable (h : RoundsTo q unit r) (hx : x.isFinite)

include h hx

theorem value_eq (hm : (x.exponent + 1074).toNat * 2 ^ 52 + x.significand =
    (unit + 1074).toNat * 2 ^ 52 + r) :
    x.value = r * 2 ^ unit ∧ (r % 2 = 0 → x.significand % 2 = 0) := by
  obtain ⟨hlt, hnormal, hlowest, -⟩ := isNormal hx
  have hr := h.le
  have hrnormal := h.normal
  have hunit := h.lowest
  by_cases hfull : r = 2 ^ 53
  · have hsignificand : x.significand = 2 ^ 52 := by omega
    have hexponent : x.exponent = 1 + unit := by omega
    refine ⟨?_, fun _ ↦ by rw [hsignificand]; decide⟩
    rw [value, hsignificand, hexponent, hfull, zpow_add₀ (by norm_num)]
    norm_num
    ring
  · have hsignificand : x.significand = r := by omega
    have hexponent : x.exponent = unit := by omega
    exact ⟨by rw [value, hsignificand, hexponent], fun heven ↦ hsignificand ▸ heven⟩

theorem isNearest (hm : (x.exponent + 1074).toNat * 2 ^ 52 + x.significand =
    (unit + 1074).toNat * 2 ^ 52 + r) : IsNearest x q := by
  obtain ⟨hvalue, heven⟩ := h.value_eq hx hm
  refine ⟨hx, fun m e hf hne ↦ ?_⟩
  rw [hvalue] at hne ⊢
  exact (h.nearest hf hne).imp_right fun ⟨heq, hr, _⟩ ↦ ⟨heq, heven hr⟩

end RoundsTo

theorem IsNearest.magnitude_eq (hx : IsNearest x q) (h : RoundsTo q unit r) :
    (x.exponent + 1074).toNat * 2 ^ 52 + x.significand = (unit + 1074).toNat * 2 ^ 52 + r := by
  have hunit := h.lowest
  -- a carry out of the rounded significand goes into the exponent
  obtain ⟨m, e, hf, hnormal, hvalue, hm⟩ : ∃ m e, InFormat m e ∧ (2 ^ 52 ≤ m ∨ e = -1074) ∧
      (m : ℚ) * 2 ^ e = r * 2 ^ unit ∧
      (e + 1074).toNat * 2 ^ 52 + m = (unit + 1074).toNat * 2 ^ 52 + r := by
    have hr := h.le
    by_cases hfull : r = 2 ^ 53
    · refine ⟨2 ^ 52, 1 + unit, ⟨by decide, by omega⟩, .inl le_rfl, ?_, by omega⟩
      rw [hfull, zpow_add₀ (by norm_num)]
      norm_num
      ring
    · exact ⟨r, unit, ⟨by omega, hunit⟩, h.normal, rfl, rfl⟩
  have heq : (x.significand : ℚ) * 2 ^ x.exponent = m * 2 ^ e := by
    by_contra hne
    have hfirst := hx.nearest m e hf fun he ↦ hne he.symm
    have hsecond := h.nearest (inFormat hx.finite) (hvalue ▸ hne)
    rw [hvalue] at hfirst
    change |q - r * 2 ^ unit| < |q - x.value| ∨ |q - r * 2 ^ unit| = |q - x.value| ∧ _ at hsecond
    rcases hfirst with hfirst | ⟨hfirst, heven⟩ <;> rcases hsecond with hsecond | ⟨hsecond, -, hodd⟩
    · exact lt_asymm hfirst hsecond
    · exact hfirst.ne hsecond.symm
    · exact hsecond.ne hfirst.symm
    · omega
  obtain ⟨hsignificand, hexponent⟩ := eq_of_value_eq (inFormat hx.finite) hf
    (isNormal hx.finite).le hnormal heq
  rw [hsignificand, hexponent, hm]

theorem ofRatio?_eq_some_iff (hnum : 0 < num) (hden : 0 < den) :
    ofRatio? negative num den = some x ↔
      x.isNegative = negative ∧ IsNearest x ((num : ℚ) / den) := by
  have h := roundsTo_roundDiv hnum hden
  simp only [ofRatio?, Nat.pow_eq]
  generalize unitOf num den = unit at h ⊢
  generalize roundDiv _ _ = r at h ⊢
  constructor
  · intro hsome
    split at hsome
    · next hlt =>
      cases hsome
      obtain ⟨hnegative, hfinite, hm⟩ := ofMagnitude_spec negative hlt
      exact ⟨hnegative, h.isNearest hfinite hm⟩
    · cases hsome
  · rintro ⟨rfl, hx⟩
    have hself := ofMagnitude_fields x
    have hlt := exponentField_lt hx.finite
    have hfraction := fractionField_lt x
    rw [← Binary64.magnitude_eq, hx.magnitude_eq h] at hself
    have hfields := (Binary64.magnitude_eq x).symm.trans (hx.magnitude_eq h)
    rw [if_pos (by omega), hself]

theorem isNearest_iff_of_small (hnonneg : 0 ≤ q) (hsmall : q < 2 ^ (-1075 : ℤ)) :
    IsNearest x q ↔ x.isFinite ∧ x.significand = 0 := by
  have hhalf : (2 : ℚ) ^ (-1074 : ℤ) = 2 * 2 ^ (-1075 : ℤ) := by
    rw [← zpow_one_add₀ (by norm_num)]
    norm_num
  have hle : ∀ m e, InFormat m e → m ≠ 0 → (2 : ℚ) ^ (-1074 : ℤ) ≤ m * 2 ^ e := by
    intro m e hf hm
    calc (2 : ℚ) ^ (-1074 : ℤ) ≤ 2 ^ e := zpow_le_zpow_right₀ (by norm_num) hf.lowest
      _ ≤ m * 2 ^ e := le_mul_of_one_le_left (zpow_pos (by norm_num) _).le
          (by exact_mod_cast Nat.one_le_iff_ne_zero.mpr hm)
  constructor
  · intro hx
    refine ⟨hx.finite, by_contra fun hm ↦ ?_⟩
    have hvalue := hle _ _ (inFormat hx.finite) hm
    have hfar : q < |q - x.value| := by
      rw [abs_sub_comm, value]
      exact lt_of_lt_of_le (by linarith) (le_abs_self _)
    have hzero := hx.nearest 0 (-1074) ⟨by decide, le_rfl⟩ (by
      rw [Nat.cast_zero, zero_mul, ne_comm, Ne, value_eq_zero_iff]
      exact hm)
    rw [Nat.cast_zero, zero_mul, sub_zero, abs_of_nonneg hnonneg] at hzero
    rcases hzero with hlt | ⟨heq, -⟩ <;> linarith
  · rintro ⟨hfinite, hm⟩
    have hvalue := value_eq_zero_iff.mpr hm
    refine ⟨hfinite, fun m e hf hne ↦ .inl ?_⟩
    rw [hvalue] at hne ⊢
    have hfar := hle m e hf fun h0 ↦ hne (by rw [h0, Nat.cast_zero, zero_mul])
    rw [sub_zero, abs_of_nonneg hnonneg, abs_sub_comm]
    exact lt_of_lt_of_le (by linarith) (le_abs_self _)

theorem not_isNearest_of_large (h : 2 ^ (1024 : ℤ) ≤ q) : ¬ IsNearest x q := by
  intro hx
  have hlt : x.value < 2 ^ (1024 : ℤ) :=
    (isNormal hx.finite).value_lt.trans_le (zpow_le_zpow_right₀ (by norm_num)
      (by have := (isNormal hx.finite).highest; omega))
  have hnext : ((2 ^ 52 : ℕ) : ℚ) * 2 ^ (972 : ℤ) = 2 ^ (1024 : ℤ) := by
    rw [Nat.cast_pow, ← zpow_natCast, Nat.cast_ofNat, ← zpow_add₀ (by norm_num)]
    norm_num
  have hnearer := hx.nearest (2 ^ 52) 972 ⟨by decide, by decide⟩ (hnext ▸ hlt.ne')
  rw [hnext, abs_of_pos (by linarith), abs_of_nonneg (by linarith)] at hnearer
  rcases hnearer with hlt | ⟨heq, -⟩ <;> linarith

theorem ofMagnitude_zero_eq_iff :
    ofMagnitude negative 0 = x ↔ x.isNegative = negative ∧ x.isFinite ∧ x.significand = 0 := by
  constructor
  · rintro rfl
    obtain ⟨hnegative, hfinite, hm⟩ := ofMagnitude_spec negative (n := 0) (by decide)
    exact ⟨hnegative, hfinite, by omega⟩
  · rintro ⟨rfl, -, h⟩
    exact ofMagnitude_zero h

/-- A decimal is read as the number nearest to it. -/
theorem ofDecimal?_eq_some_iff :
    ofDecimal? negative d = some x ↔ x.isNegative = negative ∧ IsNearest x d.value := by
  have hten : ∀ {a b : ℤ}, a ≤ b → (10 : ℚ) ^ a ≤ 10 ^ b := fun h ↦
    zpow_le_zpow_right₀ (by norm_num) h
  by_cases hzero : d.digits = 0
  · have hvalue : d.value = 0 := by simp [Decimal.value, hzero]
    rw [hvalue, isNearest_iff_of_small le_rfl (zpow_pos (by norm_num) _)]
    simp [ofDecimal?, hzero, ofMagnitude_zero_eq_iff]
  obtain ⟨hlower, hupper⟩ := Decimal.value_bounds hzero
  have hpositive := Decimal.value_pos hzero
  have hdigits := Nat.pos_of_ne_zero hzero
  by_cases hsmall : (d.length + d.exponent : ℤ) < -330
  · have htiny : (10 : ℚ) ^ (-331 : ℤ) ≤ 2 ^ (-1075 : ℤ) := by
      have hpow : 2 ^ 1075 ≤ 10 ^ 331 := by decide +kernel
      rw [zpow_neg, zpow_neg]
      exact inv_anti₀ (zpow_pos (by norm_num) _) (by exact_mod_cast hpow)
    rw [isNearest_iff_of_small hpositive.le ((hupper.trans_le (hten (by omega))).trans_le htiny)]
    simp [ofDecimal?, hsmall, ofMagnitude_zero_eq_iff]
  by_cases hlarge : 310 < (d.length + d.exponent : ℤ)
  · have hhuge : (2 : ℚ) ^ (1024 : ℤ) ≤ 10 ^ (310 : ℤ) := by
      have hpow : 2 ^ 1024 ≤ 10 ^ 310 := by decide +kernel
      exact_mod_cast hpow
    have hout := not_isNearest_of_large (x := x) ((hhuge.trans (hten (by omega))).trans hlower)
    simp [ofDecimal?, hzero, hsmall, hlarge, hout]
  simp only [ofDecimal?, hzero, hsmall, hlarge, or_self, if_false, Nat.pow_eq]
  split
  · next hexp =>
    have hvalue : d.value = (d.digits * 10 ^ d.exponent.toNat : ℕ) / (1 : ℕ) := by
      rw [Decimal.value]
      have hcast : d.exponent = (d.exponent.toNat : ℤ) := by omega
      generalize d.exponent.toNat = k at hcast ⊢
      simp [hcast]
    rw [hvalue]
    exact ofRatio?_eq_some_iff (Nat.mul_pos hdigits (Nat.pow_pos (by decide))) Nat.one_pos
  · next hexp =>
    have hvalue : d.value = (d.digits : ℚ) / (10 ^ (-d.exponent).toNat : ℕ) := by
      rw [Decimal.value]
      have hcast : d.exponent = -((-d.exponent).toNat : ℤ) := by omega
      generalize (-d.exponent).toNat = k at hcast ⊢
      simp [hcast, div_eq_mul_inv]
    rw [hvalue]
    exact ofRatio?_eq_some_iff hdigits (Nat.pow_pos (by decide))

theorem ofDecimal?_shorten (hd : ofDecimal? x.isNegative d.strip = some x) (drop : ℕ) :
    ofDecimal? x.isNegative (x.shorten d drop) = some x := by
  induction drop with
  | zero => exact hd
  | succ drop ih =>
    rw [shorten]
    split
    · next found hfound =>
      have hread := List.find?_some hfound
      simpa [isReadFrom] using hread
    · exact ih

theorem ofDecimal?_shortest (hx : x.isFinite) : ofDecimal? x.isNegative x.shortest = some x := by
  have hexact : ofDecimal? x.isNegative x.toDecimal.strip = some x :=
    ofDecimal?_eq_some_iff.mpr
      ⟨rfl, by rw [Decimal.value_strip, value_toDecimal]; exact isNearest_value hx⟩
  exact ofDecimal?_shorten hexact _

theorem strip_of_mem_neighbours {drop : ℕ} {d' : Decimal} (h : d' ∈ neighbours d drop) :
    d'.strip = d' := by
  simp only [neighbours] at h
  split at h <;> rcases List.mem_pair.mp h with rfl | rfl <;> exact Decimal.strip_strip _

theorem strip_shorten (x : Binary64) (d : Decimal) (drop : ℕ) :
    (x.shorten d drop).strip = x.shorten d drop := by
  induction drop with
  | zero => exact Decimal.strip_strip d
  | succ drop ih =>
    rw [shorten]
    split
    · next found hfound => exact strip_of_mem_neighbours (List.mem_of_find?_eq_some hfound)
    · exact ih

end Binary64

namespace Numeral

def isNegative : Numeral → Bool
  | integer value => value < 0
  | decimal negative _ => negative

def magnitude : Numeral → ℚ
  | integer value => value.natAbs
  | decimal _ magnitude => magnitude.value

/-- The reader gives for a numeral the number nearest to it. -/
def RoundsToNearest (read : Numeral → Option Binary64) : Prop :=
  ∀ (n : Numeral) (x : Binary64), x.isNegative = n.isNegative → x.IsNearest n.magnitude →
    read n = some x

theorem toBinary64?_eq_some_iff {n : Numeral} {x : Binary64} :
    n.toBinary64? = some x ↔ x.isNegative = n.isNegative ∧ x.IsNearest n.magnitude := by
  cases n with
  | integer value =>
    have hvalue : (⟨value.natAbs, 0⟩ : Decimal).value = value.natAbs := by simp [Decimal.value]
    rw [toBinary64?, Binary64.ofDecimal?_eq_some_iff, hvalue]
    rfl
  | decimal negative magnitude => exact Binary64.ofDecimal?_eq_some_iff

theorem roundsToNearest_toBinary64? : RoundsToNearest toBinary64? := fun _ _ hnegative hx ↦
  toBinary64?_eq_some_iff.mpr ⟨hnegative, hx⟩

/-- A reader that rounds to the nearest number reads back what has been written for a number. -/
theorem RoundsToNearest.read_shortest {read : Numeral → Option Binary64} (h : RoundsToNearest read)
    {x : Binary64} (hx : x.isFinite) : read (.decimal x.isNegative x.shortest) = some x :=
  h _ x rfl (Binary64.ofDecimal?_eq_some_iff.mp (Binary64.ofDecimal?_shortest hx)).2

end Numeral

end BuildScript
