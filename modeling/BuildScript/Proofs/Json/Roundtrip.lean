import BuildScript.Proofs.Json.Numerals
import BuildScript.Proofs.Json.Strings

namespace BuildScript.Json

mutual

def IsStripped : Json → Prop
  | null | bool _ | string _ => True
  | number n => n.IsStripped
  | array items => AreStripped items
  | object fields => AreFieldsStripped fields

def AreStripped : List Json → Prop
  | [] => True
  | j :: rest => j.IsStripped ∧ AreStripped rest

def AreFieldsStripped : List (Option String × Json) → Prop
  | [] => True
  | (_, j) :: rest => j.IsStripped ∧ AreFieldsStripped rest

end

theorem areStripped_iff {l : List Json} : AreStripped l ↔ ∀ j ∈ l, j.IsStripped := by
  induction l with
  | nil => simp [AreStripped]
  | cons j rest ih => simp [AreStripped, ih]

theorem areFieldsStripped_iff {l : List (Option String × Json)} :
    AreFieldsStripped l ↔ ∀ field ∈ l, field.2.IsStripped := by
  induction l with
  | nil => simp [AreFieldsStripped]
  | cons field rest ih => simp [AreFieldsStripped, ih]

variable {j : Json} {fuel : Nat} {c : Char} {cs rest : List Char}

theorem exists_head (h : j.IsStripped) :
    ∃ c cs, j.toChars = c :: cs ∧ isBlank c = false ∧ c ≠ ']' := by
  cases j with
  | null => exact ⟨_, _, rfl, rfl, by decide⟩
  | bool b => cases b <;> exact ⟨_, _, rfl, rfl, by decide⟩
  | number n =>
    obtain ⟨c, cs, heq, hc⟩ := exists_head_toChars h
    refine ⟨c, cs, heq, ?_, ?_⟩
    · rcases hc with rfl | hc
      · rfl
      · cases hblank : isBlank c with
        | false => rfl
        | true =>
          simp only [isBlank, Bool.or_eq_true, beq_iff_eq] at hblank
          rcases hblank with ((rfl | rfl) | rfl) | rfl <;> exact absurd hc (by decide)
    · rintro rfl
      rcases hc with hc | hc <;> exact absurd hc (by decide)
  | string s =>
    obtain ⟨body, heq, -⟩ := readString_quote s []
    exact ⟨_, _, heq, rfl, by decide⟩
  | array items => exact ⟨_, _, rfl, rfl, by decide⟩
  | object fields => exact ⟨_, _, rfl, rfl, by decide⟩

theorem skipBlanks_cons (h : isBlank c = false) : skipBlanks (c :: cs) = c :: cs := by
  simp [skipBlanks, h]

theorem skipBlanks_toChars (h : j.IsStripped) (rest : List Char) :
    skipBlanks (j.toChars ++ rest) = j.toChars ++ rest := by
  obtain ⟨c, cs, heq, hc, -⟩ := exists_head h
  rw [heq, List.cons_append, skipBlanks_cons hc]

/-- The bracket that closes an array does not stand where an item starts. -/
theorem exists_head_items (h : j.IsStripped) (l : List Json) :
    ∃ c cs, itemsToChars (j :: l) = c :: cs ∧ isBlank c = false ∧ c ≠ ']' := by
  obtain ⟨c, cs, heq, hc⟩ := exists_head h
  cases l with
  | nil => exact ⟨c, cs, by rw [itemsToChars, heq], hc⟩
  | cons j' l =>
    refine ⟨c, cs ++ ',' :: itemsToChars (j' :: l), ?_, hc⟩
    simp only [itemsToChars, heq, List.cons_append]

theorem exists_quote_fields (field : Option String × Json) (l : List (Option String × Json)) :
    ∃ cs, fieldsToChars (field :: l) = '"' :: cs := by
  obtain ⟨body, heq, -⟩ := readString_quote field.1 []
  cases l <;> simp [fieldsToChars, heq]

theorem readValue_number (h : c = '-' ∨ c.isDigit = true) (fuel : Nat) (cs : List Char) :
    readValue (fuel + 1) (c :: cs) =
      (readNumeral (c :: cs)).map fun (n, rest) ↦ (number n, rest) := by
  have hne : ∀ c' : Char, c' ≠ '-' → c'.isDigit = false → ∀ cs', c :: cs ≠ c' :: cs' := by
    rintro c' hminus hdigit cs' heq
    obtain rfl := (List.cons.inj heq).1
    rcases h with rfl | h
    · exact hminus rfl
    · simp [h] at hdigit
  rw [readValue]
  all_goals exact fun _ heq ↦ hne _ (by decide) (by decide) _ heq

mutual

/-- With two units of fuel for each character, a value is read back from its text. -/
theorem readValue_toChars : ∀ (j : Json) (fuel : Nat) (rest : List Char), j.IsStripped →
    2 * j.toChars.length ≤ fuel → Stops rest → readValue fuel (j.toChars ++ rest) = some (j, rest)
  | j, 0, rest, h, hfuel, _ => by
    obtain ⟨c, cs, heq, -⟩ := exists_head h
    simp [heq] at hfuel
  | null, fuel + 1, rest, _, _, _ => by simp [toChars, readValue]
  | bool true, fuel + 1, rest, _, _, _ => by simp [toChars, readValue]
  | bool false, fuel + 1, rest, _, _, _ => by simp [toChars, readValue]
  | number n, fuel + 1, rest, h, _, hrest => by
    have hread := readNumeral_toChars h hrest
    obtain ⟨c, cs, heq, hc⟩ := exists_head_toChars h
    rw [toChars, heq, List.cons_append, readValue_number hc, ← List.cons_append, ← heq, hread]
    rfl
  | string s, fuel + 1, rest, _, _, _ => by
    obtain ⟨body, heq, hread⟩ := readString_quote s rest
    simp [toChars, heq, readValue, hread]
  | array [], fuel + 1, rest, _, _, _ => by
    simp [toChars, itemsToChars, readValue, skipBlanks_cons (show isBlank ']' = false from rfl)]
  | array (j :: l), fuel + 1, rest, h, hfuel, _ => by
    simp only [toChars, List.length_cons, List.length_append] at hfuel
    have hread := readItems_toChars (j :: l) fuel rest (by simp) h (by omega)
    obtain ⟨c, cs, heq, hblank, hclose⟩ := exists_head_items h.1 l
    rw [heq, List.cons_append] at hread
    simp only [toChars, heq, List.cons_append, List.append_assoc, readValue, List.nil_append,
      skipBlanks_cons hblank]
    split
    · next hcons => exact absurd (List.cons.inj hcons).1 hclose
    · rw [hread]
      rfl
  | object [], fuel + 1, rest, _, _, _ => by
    simp [toChars, fieldsToChars, readValue, skipBlanks_cons (show isBlank '\x7d' = false from rfl)]
  | object (field :: l), fuel + 1, rest, h, hfuel, _ => by
    simp only [toChars, List.length_cons, List.length_append] at hfuel
    have hread := readFields_toChars (field :: l) fuel rest (by simp) h (by omega)
    obtain ⟨cs, heq⟩ := exists_quote_fields field l
    rw [heq, List.cons_append] at hread
    simp only [toChars, heq, List.cons_append, List.append_assoc, readValue, List.nil_append,
      skipBlanks_cons (show isBlank '"' = false from rfl)]
    split
    · next hcons => exact absurd (List.cons.inj hcons).1 (by decide)
    · rw [hread]
      rfl

theorem readItems_toChars : ∀ (l : List Json) (fuel : Nat) (rest : List Char), l ≠ [] →
    AreStripped l → 2 * (itemsToChars l).length + 1 ≤ fuel →
    readItems fuel (itemsToChars l ++ ']' :: rest) = some (l, rest)
  | [], _, _, hne, _, _ => absurd rfl hne
  | _, 0, _, _, _, hfuel => absurd hfuel (by omega)
  | [j], fuel + 1, rest, _, h, hfuel => by
    have hread := readValue_toChars j fuel (']' :: rest) h.1 (by simpa [itemsToChars] using hfuel)
      stops_bracket
    simp only [itemsToChars, readItems, skipBlanks_toChars h.1, hread, Option.bind_eq_bind,
      Option.bind_some, skipBlanks_cons (show isBlank ']' = false from rfl)]
  | j :: j' :: l, fuel + 1, rest, _, h, hfuel => by
    simp only [itemsToChars, List.length_cons, List.length_append] at hfuel
    have hitem := readValue_toChars j fuel (',' :: (itemsToChars (j' :: l) ++ ']' :: rest)) h.1
      (by omega) stops_comma
    have hrest := readItems_toChars (j' :: l) fuel rest (by simp) h.2 (by omega)
    simp only [itemsToChars, List.append_assoc, List.cons_append, readItems,
      skipBlanks_toChars h.1, hitem, hrest, Option.bind_eq_bind, Option.bind_some, Option.map_some,
      skipBlanks_cons (show isBlank ',' = false from rfl)]

theorem readFields_toChars : ∀ (l : List (Option String × Json)) (fuel : Nat) (rest : List Char),
    l ≠ [] → AreFieldsStripped l → 2 * (fieldsToChars l).length + 1 ≤ fuel →
    readFields fuel (fieldsToChars l ++ '\x7d' :: rest) = some (l, rest)
  | [], _, _, hne, _, _ => absurd rfl hne
  | _, 0, _, _, _, hfuel => absurd hfuel (by omega)
  | [(key, j)], fuel + 1, rest, _, h, hfuel => by
    simp only [fieldsToChars, List.length_cons, List.length_append] at hfuel
    obtain ⟨body, heq, hkey⟩ := readString_quote key (':' :: (j.toChars ++ '\x7d' :: rest))
    have hvalue := readValue_toChars j fuel ('\x7d' :: rest) h.1 (by omega) stops_brace
    simp only [fieldsToChars, heq, List.append_assoc, List.cons_append, readFields,
      skipBlanks_cons (show isBlank '"' = false from rfl), hkey, Option.bind_eq_bind,
      Option.bind_some, skipBlanks_cons (show isBlank ':' = false from rfl),
      skipBlanks_toChars h.1, hvalue, skipBlanks_cons (show isBlank '\x7d' = false from rfl)]
  | (key, j) :: field :: l, fuel + 1, rest, _, h, hfuel => by
    simp only [fieldsToChars, List.length_cons, List.length_append] at hfuel
    obtain ⟨body, heq, hkey⟩ := readString_quote key
      (':' :: (j.toChars ++ ',' :: (fieldsToChars (field :: l) ++ '\x7d' :: rest)))
    have hvalue := readValue_toChars j fuel (',' :: (fieldsToChars (field :: l) ++ '\x7d' :: rest))
      h.1 (by omega) stops_comma
    have hrest := readFields_toChars (field :: l) fuel rest (by simp) h.2 (by omega)
    simp only [fieldsToChars, heq, List.append_assoc, List.cons_append, readFields,
      skipBlanks_cons (show isBlank '"' = false from rfl), hkey, Option.bind_eq_bind,
      Option.bind_some, skipBlanks_cons (show isBlank ':' = false from rfl),
      skipBlanks_toChars h.1, hvalue, skipBlanks_cons (show isBlank ',' = false from rfl), hrest,
      Option.map_some]

end

theorem parse?_render (h : j.IsStripped) : parse? j.render = some j := by
  have hread := readValue_toChars j (2 * j.toChars.length + 2) [] h (by omega) stops_nil
  rw [List.append_nil] at hread
  have hskip := skipBlanks_toChars h []
  rw [List.append_nil] at hskip
  simp only [parse?, render, String.toList_ofList, hskip, hread, Option.bind_eq_bind,
    Option.bind_some]
  rfl

theorem eq_of_render_eq {k : Json} (hj : j.IsStripped) (hk : k.IsStripped)
    (h : j.render = k.render) : j = k := by
  have hread := parse?_render hj
  rw [h, parse?_render hk] at hread
  exact (Option.some.inj hread).symm

end BuildScript.Json
