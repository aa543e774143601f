import BuildScript.Json.Reader
import BuildScript.Proofs.Number.Decimal

namespace BuildScript

open Numeral

def Numeral.IsStripped : Numeral → Prop
  | integer _ => True
  | decimal _ d => d.strip = d

namespace Json

variable {n : Nat} {whole digits rest tail : List Char} {fraction : Option (List Char)}
  {exponent : Option Int} {d : Decimal}

/-- What may stand behind a value: the end, or what goes on with an array or an object. -/
def Stops (rest : List Char) : Prop := ∀ c ∈ rest.head?, c = ',' ∨ c = ']' ∨ c = '\x7d'

theorem stops_nil : Stops [] := by simp [Stops]

theorem stops_comma : Stops (',' :: rest) := by simp [Stops]

theorem stops_bracket : Stops (']' :: rest) := by simp [Stops]

theorem stops_brace : Stops ('\x7d' :: rest) := by simp [Stops]

def AreDigits (cs : List Char) : Prop := cs ≠ [] ∧ ∀ c ∈ cs, c.isDigit = true

theorem areDigits_toDigits (n : Nat) : AreDigits (Nat.toDigits 10 n) :=
  ⟨Nat.toDigits_ne_nil, fun _ hc ↦ Nat.isDigit_of_mem_toDigits (by decide) (by decide) hc⟩

theorem AreDigits.zeros_append (h : AreDigits digits) (k : Nat) :
    AreDigits (zeros k ++ digits) := by
  refine ⟨by simp [h.1], fun c hc ↦ ?_⟩
  rcases List.mem_append.mp hc with hc | hc
  · rw [List.eq_of_mem_replicate hc]
    rfl
  · exact h.2 c hc

theorem AreDigits.append_zeros (h : AreDigits digits) (k : Nat) :
    AreDigits (digits ++ zeros k) := by
  refine ⟨by simp [h.1], fun c hc ↦ ?_⟩
  rcases List.mem_append.mp hc with hc | hc
  · exact h.2 c hc
  · rw [List.eq_of_mem_replicate hc]
    rfl

theorem eq_zero_of_head?_toDigits (h : (Nat.toDigits 10 n).head? = some '0') : n = 0 := by
  induction n using Nat.strongRecOn with
  | _ n ih =>
    rw [Nat.toDigits_eq_if (by decide)] at h
    split at h
    · next hlt =>
      have hall : ∀ k < 10, k.digitChar = '0' → k = 0 := by decide
      exact hall n hlt (by simpa using h)
    · next hge =>
      have hdiv : n / 10 = 0 := by
        refine ih _ (by omega) ?_
        obtain ⟨c, cs, heq⟩ :=
          List.exists_cons_of_ne_nil (Nat.toDigits_ne_nil (n := n / 10) (b := 10))
        simpa [heq] using h
      omega

theorem readDigits_append (h : AreDigits digits) (hrest : ∀ c ∈ rest.head?, c.isDigit = false) :
    readDigits (digits ++ rest) = some (digits, rest) := by
  have hstop : rest.takeWhile Char.isDigit = [] ∧ rest.dropWhile Char.isDigit = rest := by
    cases rest with
    | nil => exact ⟨rfl, rfl⟩
    | cons c rest =>
      have hc := hrest c rfl
      simp [hc]
  have htake : (digits ++ rest).takeWhile Char.isDigit = digits := by
    rw [List.takeWhile_append_of_pos h.2, hstop.1, List.append_nil]
  have hdrop : (digits ++ rest).dropWhile Char.isDigit = rest := by
    rw [List.dropWhile_append_of_pos h.2, hstop.2]
  simp [readDigits, htake, hdrop, h.1]

def fractionChars : Option (List Char) → List Char
  | some digits => '.' :: digits
  | none => []

def exponentChars : Option Int → List Char
  | some power => 'e' :: (if power < 0 then '-' else '+') :: Nat.toDigits 10 power.natAbs
  | none => []

theorem readExponent_exponentChars (hrest : Stops rest) (exponent : Option Int) :
    readExponent (exponentChars exponent ++ rest) = some (exponent, rest) := by
  have hstop : ∀ c ∈ rest.head?, c.isDigit = false ∧ ¬ (c = 'e' ∨ c = 'E') := by
    intro c hc
    rcases hrest c hc with rfl | rfl | rfl <;> decide
  cases exponent with
  | none =>
    cases rest with
    | nil => rfl
    | cons c rest => simp [exponentChars, readExponent, (hstop c rfl).2]
  | some power =>
    have hdigits := readDigits_append (areDigits_toDigits power.natAbs) fun c hc ↦ (hstop c hc).1
    by_cases hneg : power < 0
    · have habs : -(power.natAbs : Int) = power := by omega
      simp only [exponentChars, hneg, if_true, List.cons_append, readExponent, true_or, hdigits,
        Option.map_some, Nat.ofDigitChars_ten_toDigits, habs]
    · have habs : (power.natAbs : Int) = power := by omega
      simp only [exponentChars, hneg, if_false, List.cons_append, readExponent, true_or, if_true,
        hdigits, Option.map_some, Nat.ofDigitChars_ten_toDigits, Bool.false_eq_true, habs]

theorem readFraction_fractionChars (hfraction : ∀ ds ∈ fraction, AreDigits ds)
    (htail : ∀ c ∈ tail.head?, c.isDigit = false ∧ c ≠ '.') :
    readFraction (fractionChars fraction ++ tail) = some (fraction, tail) := by
  cases fraction with
  | none =>
    cases tail with
    | nil => rfl
    | cons c tail =>
      simp only [fractionChars, List.nil_append]
      unfold readFraction
      split
      · next heq => exact absurd (List.cons.inj heq).1 (htail c rfl).2
      · rfl
  | some digits =>
    have hdigits := readDigits_append (hfraction digits rfl) fun c hc ↦ (htail c hc).1
    simp [fractionChars, readFraction, hdigits]

def readMagnitude (negative : Bool) (cs : List Char) : Option (Numeral × List Char) := do
  let (whole, cs) ← readDigits cs
  if whole.head? = some '0' ∧ 1 < whole.length then none
  else do
    let (fraction, cs) ← readFraction cs
    let (exponent, cs) ← readExponent cs
    some (numeral negative whole fraction exponent, cs)

theorem readNumeral_sign (negative : Bool) (h : ∀ c ∈ tail.head?, c ≠ '-') :
    readNumeral (sign negative ++ tail) = readMagnitude negative tail := by
  cases negative with
  | true => rfl
  | false =>
    simp only [sign, Bool.false_eq_true, if_false, List.nil_append, readNumeral]
    split
    · exact absurd rfl (h '-' rfl)
    · rfl

/-- A text without a sign, its parts, and the number that is read from them. -/
structure Spells (negative : Bool) (whole : List Char) (fraction : Option (List Char))
    (exponent : Option Int) (text : List Char) (m : Numeral) : Prop where
  areDigits : AreDigits whole
  plain : whole.head? = some '0' → whole.length = 1
  fractional : ∀ ds ∈ fraction, AreDigits ds
  spelled : text = whole ++ (fractionChars fraction ++ exponentChars exponent)
  value : numeral negative whole fraction exponent = m

variable {negative : Bool} {text : List Char} {m : Numeral}

theorem Spells.readNumeral (h : Spells negative whole fraction exponent text m)
    (hrest : Stops rest) : readNumeral (sign negative ++ text ++ rest) = some (m, rest) := by
  have hexp : ∀ c ∈ (exponentChars exponent ++ rest).head?, c.isDigit = false ∧ c ≠ '.' := by
    intro c hc
    cases exponent with
    | none => rcases hrest c hc with rfl | rfl | rfl <;> decide
    | some power =>
      obtain rfl : 'e' = c := by simpa [exponentChars] using hc
      decide
  have hfrac : ∀ c ∈ (fractionChars fraction ++ (exponentChars exponent ++ rest)).head?,
      c.isDigit = false := by
    intro c hc
    cases fraction with
    | none => exact (hexp c hc).1
    | some digits =>
      obtain rfl : '.' = c := by simpa [fractionChars] using hc
      decide
  have hplain : ¬ (whole.head? = some '0' ∧ 1 < whole.length) := fun ⟨hhead, hlen⟩ ↦
    Nat.ne_of_gt hlen (h.plain hhead)
  rw [h.spelled, List.append_assoc, readNumeral_sign]
  · simp only [List.append_assoc, readMagnitude, readDigits_append h.areDigits hfrac,
      readFraction_fractionChars h.fractional hexp, readExponent_exponentChars hrest,
      Option.bind_eq_bind, Option.bind_some, hplain, if_false, h.value]
  · obtain ⟨first, more, rfl⟩ := List.exists_cons_of_ne_nil h.areDigits.1
    intro c hc
    obtain rfl : first = c := by simpa using hc
    have hdigit := h.areDigits.2 first List.mem_cons_self
    rintro rfl
    exact absurd hdigit (by decide)

theorem numeral_strip (negative : Bool) {power : Int} (hsome : fraction.isSome ∨ exponent.isSome)
    (hdigits : Nat.ofDigitChars 10 (whole ++ fraction.getD []) 0 = n)
    (hpower : exponent.getD 0 - (fraction.getD []).length = power) :
    numeral negative whole fraction exponent = .decimal negative (.strip ⟨n, power⟩) := by
  cases fraction <;> cases exponent <;> simp_all [numeral]

theorem spells_integer (value : Int) :
    Spells (decide (value < 0)) (Nat.toDigits 10 value.natAbs) none none
      (Nat.toDigits 10 value.natAbs) (.integer value) where
  areDigits := areDigits_toDigits _
  plain hzero := by
    rw [eq_zero_of_head?_toDigits hzero]
    rfl
  fractional := by simp
  spelled := by simp [fractionChars, exponentChars]
  value := by
    by_cases hneg : value < 0
    · have hne : value.natAbs ≠ 0 := by omega
      simp only [numeral, hneg, decide_true, if_true, Option.getD_none, List.append_nil,
        Nat.ofDigitChars_ten_toDigits, hne, if_false, integer.injEq]
      omega
    · simp only [numeral, hneg, decide_false, Bool.false_eq_true, if_false, Option.getD_none,
        List.append_nil, Nat.ofDigitChars_ten_toDigits, integer.injEq]
      omega

structure HasDigits (d : Decimal) (chars : List Char) : Prop where
  areDigits : AreDigits chars
  value : Nat.ofDigitChars 10 chars 0 = d.digits
  plain : chars.head? = some '0' → chars.length = 1 ∧ d.exponent = 0
  stripped : d.strip = d

theorem hasDigits_toDigits (h : d.strip = d) : HasDigits d (Nat.toDigits 10 d.digits) where
  areDigits := areDigits_toDigits d.digits
  value := Nat.ofDigitChars_ten_toDigits
  plain hhead := by
    have hzero := eq_zero_of_head?_toDigits hhead
    have hstrip := Decimal.strip_zero d.exponent
    rw [← hzero, h] at hstrip
    exact ⟨by rw [hzero]; rfl, congrArg Decimal.exponent hstrip⟩
  stripped := h

variable {chars : List Char}

theorem HasDigits.spells_behind_zeros (h : HasDigits d chars) (negative : Bool) {k : Nat}
    (hk : d.exponent + chars.length = -k) :
    Spells negative ['0'] (some (zeros k ++ chars)) none (['0', '.'] ++ zeros k ++ chars)
      (.decimal negative d) where
  areDigits := ⟨by simp, by simp⟩
  plain _ := rfl
  fractional ds hds := by
    obtain rfl := Option.mem_some.mp hds
    exact h.areDigits.zeros_append k
  spelled := by simp [fractionChars, exponentChars]
  value := by
    refine (numeral_strip negative (.inl rfl) ?_ ?_).trans (congrArg _ h.stripped)
    · simp [Nat.ofDigitChars_append, Nat.ofDigitChars_cons, zeros, h.value]
    · simp only [Option.getD_none, Option.getD_some, List.length_append, zeros,
        List.length_replicate]
      omega

/-- The point stands behind the digits and the zeros that have been stripped. -/
theorem HasDigits.spells_before_zeros (h : HasDigits d chars) (negative : Bool) {k : Nat}
    (hk : d.exponent = k) :
    Spells negative (chars ++ zeros k) (some ['0']) none (chars ++ zeros k ++ ['.', '0'])
      (.decimal negative d) where
  areDigits := h.areDigits.append_zeros k
  plain hhead := by
    obtain ⟨first, more, rfl⟩ := List.exists_cons_of_ne_nil h.areDigits.1
    obtain ⟨hlen, hexp⟩ := h.plain hhead
    obtain rfl : k = 0 := by omega
    simpa [zeros] using hlen
  fractional ds hds := by
    obtain rfl := Option.mem_some.mp hds
    exact ⟨by simp, by simp⟩
  spelled := by simp [fractionChars, exponentChars]
  value := by
    have hshift := Decimal.strip_shift d.digits (k + 1) (-1)
    have hexp : (-1 : Int) + (k + 1 : Nat) = d.exponent := by omega
    rw [hexp] at hshift
    refine (numeral_strip negative (.inl rfl) ?_ rfl).trans
      (congrArg _ (hshift.trans h.stripped))
    simp only [Option.getD_some, Nat.ofDigitChars_append, h.value, zeros,
      Nat.ofDigitChars_replicate_zero, Nat.ofDigitChars_cons, Nat.ofDigitChars_nil]
    rw [Nat.pow_succ, ← Nat.mul_assoc, Nat.mul_comm _ 10, Nat.mul_comm d.digits]
    rfl

/-- The point stands among the digits. -/
theorem HasDigits.spells_split (h : HasDigits d chars) (negative : Bool) {places : Nat}
    (hplaces : d.exponent + chars.length = places) (hpos : 0 < places)
    (hshort : places < chars.length) :
    Spells negative (chars.take places) (some (chars.drop places)) none
      (chars.take places ++ '.' :: chars.drop places) (.decimal negative d) where
  areDigits := by
    have hlen : (chars.take places).length = places := by
      rw [List.length_take]
      omega
    exact ⟨List.length_pos_iff.mp (by omega),
      fun c hc ↦ h.areDigits.2 c (List.mem_of_mem_take hc)⟩
  plain hhead := by
    rw [List.head?_take, if_neg (Nat.ne_of_gt hpos)] at hhead
    have hone := (h.plain hhead).1
    omega
  fractional ds hds := by
    obtain rfl := Option.mem_some.mp hds
    exact ⟨by simpa using hshort, fun c hc ↦ h.areDigits.2 c (List.mem_of_mem_drop hc)⟩
  spelled := by simp [fractionChars, exponentChars]
  value := by
    refine (numeral_strip negative (.inl rfl) ?_ ?_).trans (congrArg _ h.stripped)
    · rw [Option.getD_some, List.take_append_drop, h.value]
    · rw [Option.getD_none, Option.getD_some, List.length_drop]
      omega

theorem HasDigits.exists_spells_positional (h : HasDigits d chars) (negative : Bool) :
    ∃ whole fraction, Spells negative whole (some fraction) none
      (positional chars (d.exponent + chars.length)) (.decimal negative d) := by
  unfold positional
  split
  · next hfront => exact ⟨_, _, h.spells_behind_zeros negative (by omega)⟩
  · next hfront =>
    split
    · next hbehind => exact ⟨_, _, h.spells_before_zeros negative (by omega)⟩
    · next hbehind => exact ⟨_, _, h.spells_split negative (by omega) (by omega) (by omega)⟩

theorem HasDigits.exists_spells_scientific (h : HasDigits d chars) (negative : Bool) :
    ∃ whole fraction, Spells negative whole fraction (some (d.exponent + chars.length - 1))
      (scientific chars (d.exponent + chars.length - 1)) (.decimal negative d) := by
  match chars, h with
  | [first], h =>
    refine ⟨[first], none, h.areDigits, fun _ ↦ rfl, by simp,
      by simp [scientific, fractionChars, exponentChars], ?_⟩
    exact (numeral_strip negative (.inr rfl) (by simpa using h.value) (by simp)).trans
      (congrArg _ h.stripped)
  | first :: second :: more, h =>
    refine ⟨[first], some (second :: more), ⟨by simp, fun c hc ↦ ?_⟩, fun _ ↦ rfl, ?_,
      by simp [scientific, fractionChars, exponentChars], ?_⟩
    · rw [List.mem_singleton.mp hc]
      exact h.areDigits.2 first List.mem_cons_self
    · intro ds hds
      obtain rfl := Option.mem_some.mp hds
      exact ⟨by simp, fun c hc ↦ h.areDigits.2 c (List.mem_cons_of_mem _ hc)⟩
    · refine (numeral_strip negative (.inl rfl) (by simpa using h.value) ?_).trans
        (congrArg _ h.stripped)
      simp only [Option.getD_some, List.length_cons]
      omega
  | [], h => exact absurd rfl h.areDigits.1

theorem exists_spells (h : m.IsStripped) : ∃ negative whole fraction exponent text,
    m.toChars = sign negative ++ text ∧ Spells negative whole fraction exponent text m := by
  cases m with
  | integer value => exact ⟨_, _, _, _, _, rfl, spells_integer value⟩
  | decimal negative d =>
    simp only [Numeral.toChars]
    split
    · obtain ⟨whole, fraction, hspell⟩ :=
        (hasDigits_toDigits h).exists_spells_positional negative
      have hpower : d.exponent + (Nat.toDigits 10 d.digits).length - 1 + 1 =
          d.exponent + (Nat.toDigits 10 d.digits).length := by omega
      rw [hpower]
      exact ⟨_, _, _, _, _, rfl, hspell⟩
    · obtain ⟨whole, fraction, hspell⟩ :=
        (hasDigits_toDigits h).exists_spells_scientific negative
      exact ⟨_, _, _, _, _, rfl, hspell⟩

theorem readNumeral_toChars (h : m.IsStripped) (hrest : Stops rest) :
    readNumeral (m.toChars ++ rest) = some (m, rest) := by
  obtain ⟨negative, whole, fraction, exponent, text, heq, hspell⟩ := exists_spells h
  rw [heq]
  exact hspell.readNumeral hrest

theorem exists_head_toChars (h : m.IsStripped) :
    ∃ c cs, m.toChars = c :: cs ∧ (c = '-' ∨ c.isDigit = true) := by
  obtain ⟨negative, whole, fraction, exponent, text, heq, hspell⟩ := exists_spells h
  cases negative with
  | true => exact ⟨'-', text, heq, .inl rfl⟩
  | false =>
    obtain ⟨first, more, hwhole⟩ := List.exists_cons_of_ne_nil hspell.areDigits.1
    have hdigit := hspell.areDigits.2 first (hwhole ▸ List.mem_cons_self)
    exact ⟨first, _, by rw [heq, hspell.spelled, hwhole]; rfl, .inr hdigit⟩

end Json

end BuildScript
