import BuildScript.Json.Reader
import BuildScript.Json.Writer

namespace BuildScript.Json

variable {c : Char} {fuel n : Nat} {cs rest tail : List Char}

theorem hexValue?_hexDigit (h : n < 16) : hexValue? (hexDigit n) = some n := by
  have hall : ∀ k < 16, hexValue? (hexDigit k) = some k := by decide
  exact hall n h

/-- The three ways to write a character: by a letter behind a backslash, by its number, and as it
is. -/
theorem escape_cases (c : Char) :
    (∃ letter, letter ≠ 'u' ∧ unescape? letter = some c ∧ escape c = ['\\', letter]) ∨
    (c.toNat < 32 ∧ escape c =
      ['\\', 'u', '0', '0', hexDigit (c.toNat / 16), hexDigit (c.toNat % 16)]) ∨
    (c ≠ '"' ∧ c ≠ '\\' ∧ ¬ c.toNat < 32 ∧ escape c = [c]) := by
  fun_cases escape c
  case case8 hquote hslash _ _ _ _ _ hcontrol => exact .inr (.inl ⟨hcontrol, rfl⟩)
  case case9 hquote hslash _ _ _ _ _ hplain => exact .inr (.inr ⟨hquote, hslash, hplain, rfl⟩)
  all_goals exact .inl ⟨_, by decide, rfl, rfl⟩

theorem readEscape_control (h : c.toNat < 32) :
    readEscape ('u' :: '0' :: '0' :: hexDigit (c.toNat / 16) :: hexDigit (c.toNat % 16) :: rest) =
      some (some c, rest) := by
  have hzero : hexValue? '0' = some 0 := by decide
  have hunit : readUnit ('0' :: '0' :: hexDigit (c.toNat / 16) :: hexDigit (c.toNat % 16) :: rest) =
      some (c.toNat, rest) := by
    have hsum : c.toNat / 16 * 16 + c.toNat % 16 = c.toNat := Nat.div_add_mod' ..
    simp only [readUnit, hzero, hexValue?_hexDigit (show c.toNat / 16 < 16 by omega),
      hexValue?_hexDigit (show c.toNat % 16 < 16 by omega), Option.bind_eq_bind,
      Option.bind_some, Nat.zero_mul, Nat.zero_add, hsum]
  have hhigh : ¬ (0xD800 ≤ c.toNat ∧ c.toNat ≤ 0xDBFF) := by omega
  have hlow : ¬ (0xDC00 ≤ c.toNat ∧ c.toNat ≤ 0xDFFF) := by omega
  simp only [readEscape, hunit, Option.bind_eq_bind, Option.bind_some, hhigh, hlow, if_false,
    Char.ofNat_toNat]

theorem readEscape_letter {letter : Char} (hu : letter ≠ 'u') (h : unescape? letter = some c) :
    readEscape (letter :: rest) = some (some c, rest) := by
  unfold readEscape
  split
  · next heq => exact absurd (List.cons.inj heq).1 hu
  · next heq =>
    obtain ⟨rfl, rfl⟩ := List.cons.inj heq
    rw [h, Option.map_some]
  · next heq => exact absurd heq (by simp)

theorem readQuoted_escape (h : readQuoted fuel rest = some (some cs, tail)) :
    readQuoted (fuel + 1) (escape c ++ rest) = some (some (c :: cs), tail) := by
  rcases escape_cases c with ⟨letter, hu, hletter, heq⟩ | ⟨hcontrol, heq⟩ |
    ⟨hquote, hslash, hplain, heq⟩
  · simp [heq, readQuoted, readEscape_letter hu hletter, h]
  · simp [heq, readQuoted, readEscape_control hcontrol, h]
  · simp [heq, readQuoted, hquote, hslash, hplain, h]

theorem readQuoted_flatMap (s : List Char) (h : s.length < fuel) :
    readQuoted fuel (s.flatMap escape ++ '"' :: rest) = some (some s, rest) := by
  induction s generalizing fuel with
  | nil =>
    obtain ⟨fuel, rfl⟩ := Nat.exists_eq_succ_of_ne_zero (Nat.ne_of_gt h)
    simp [readQuoted]
  | cons c s ih =>
    obtain ⟨fuel, rfl⟩ := Nat.exists_eq_succ_of_ne_zero (Nat.ne_of_gt (Nat.zero_lt_of_lt h))
    rw [List.flatMap_cons, List.append_assoc]
    exact readQuoted_escape (ih (Nat.lt_of_succ_lt_succ h))

theorem length_le_flatMap_escape (s : List Char) : s.length ≤ (s.flatMap escape).length := by
  induction s with
  | nil => simp
  | cons c s ih =>
    have hpos : 1 ≤ (escape c).length := by
      rcases escape_cases c with ⟨letter, -, -, heq⟩ | ⟨-, heq⟩ | ⟨-, -, -, heq⟩ <;> simp [heq]
    simp only [List.flatMap_cons, List.length_append, List.length_cons]
    omega

theorem readString_quote (s : Option String) (rest : List Char) :
    ∃ body, quote s = '"' :: body ∧ readString (body ++ rest) = some (s, rest) := by
  cases s with
  | none =>
    refine ⟨_, rfl, ?_⟩
    have hunit :
        readUnit ('d' :: '8' :: '0' :: '0' :: '"' :: rest) = some (0xD800, '"' :: rest) := rfl
    have hhalf : readLowHalf ('"' :: rest) = none := rfl
    simp [readString, readQuoted, readEscape, hunit, hhalf]
  | some s =>
    refine ⟨s.toList.flatMap escape ++ ['"'], rfl, ?_⟩
    have hlen := length_le_flatMap_escape s.toList
    have hfuel : s.toList.length < (s.toList.flatMap escape ++ '"' :: rest).length := by
      simp only [List.length_append, List.length_cons]
      omega
    rw [List.append_assoc, List.singleton_append]
    simp only [readString, readQuoted_flatMap s.toList hfuel, Option.map_some,
      String.ofList_toList]

end BuildScript.Json
