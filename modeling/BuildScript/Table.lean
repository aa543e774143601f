namespace BuildScript

/-- Numbered slots. A slot is handed out once, may be emptied later, and its number is never given
to another entry. -/
structure Table (α : Type) where
  slots : Array (Option α) := #[]

namespace Table

variable {α : Type}

def size (t : Table α) : Nat := t.slots.size

def get? (t : Table α) (i : Nat) : Option α := t.slots[i]?.join

def push (t : Table α) (a : Option α) : Table α := ⟨t.slots.push a⟩

def modify (t : Table α) (i : Nat) (f : α → α) : Table α := ⟨t.slots.modify i (Option.map f)⟩

def erase (t : Table α) (i : Nat) : Table α := ⟨t.slots.modify i fun _ ↦ none⟩

def map (t : Table α) (f : Nat → α → α) : Table α := ⟨t.slots.mapIdx fun i a ↦ a.map (f i)⟩

def ids (t : Table α) : List Nat := (List.range t.size).filter fun i ↦ (t.get? i).isSome

def entries (t : Table α) : List α := (List.range t.size).filterMap t.get?

@[simp]
theorem get?_push (t : Table α) (a : Option α) (i : Nat) :
    (t.push a).get? i = if i = t.size then a else t.get? i := by
  simp only [get?, push, size, Array.getElem?_push]
  split <;> simp_all

@[simp]
theorem size_push (t : Table α) (a : Option α) : (t.push a).size = t.size + 1 := by
  simp [push, size]

@[simp]
theorem get?_modify (t : Table α) (i j : Nat) (f : α → α) :
    (t.modify i f).get? j = if i = j then (t.get? j).map f else t.get? j := by
  simp only [get?, modify, Array.getElem?_modify]
  split
  · cases t.slots[j]? <;> simp
  · rfl

@[simp]
theorem size_modify (t : Table α) (i : Nat) (f : α → α) : (t.modify i f).size = t.size := by
  simp [modify, size]

@[simp]
theorem get?_erase (t : Table α) (i j : Nat) :
    (t.erase i).get? j = if i = j then none else t.get? j := by
  simp only [get?, erase, Array.getElem?_modify]
  split
  · cases t.slots[j]? <;> simp
  · rfl

@[simp]
theorem size_erase (t : Table α) (i : Nat) : (t.erase i).size = t.size := by
  simp [erase, size]

@[simp]
theorem get?_map (t : Table α) (f : Nat → α → α) (i : Nat) :
    (t.map f).get? i = (t.get? i).map (f i) := by
  simp only [get?, map, Array.getElem?_mapIdx]
  cases t.slots[i]? <;> simp

@[simp]
theorem size_map (t : Table α) (f : Nat → α → α) : (t.map f).size = t.size := by
  simp [map, size]

theorem lt_size_of_get? {t : Table α} {i : Nat} {a : α} (h : t.get? i = some a) : i < t.size := by
  simp only [get?, Option.join_eq_some_iff] at h
  exact (Array.getElem?_eq_some_iff.mp h).1

@[simp]
theorem mem_ids {t : Table α} {i : Nat} : i ∈ t.ids ↔ (t.get? i).isSome := by
  simp only [ids, List.mem_filter, List.mem_range, and_iff_right_iff_imp]
  intro h
  obtain ⟨a, ha⟩ := Option.isSome_iff_exists.mp h
  exact lt_size_of_get? ha

theorem mem_entries {t : Table α} {a : α} : a ∈ t.entries ↔ ∃ i, t.get? i = some a := by
  simp only [entries, List.mem_filterMap, List.mem_range]
  exact ⟨fun ⟨i, _, h⟩ ↦ ⟨i, h⟩, fun ⟨i, h⟩ ↦ ⟨i, lt_size_of_get? h, h⟩⟩

end Table

end BuildScript
