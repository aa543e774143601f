import BuildScript.Proofs.Store.Staging

namespace BuildScript.Store

variable {s : Store} {l : List Entry} {e : Entry} {node : NodeId}

theorem insertIdx_middle {α : Type} (a : α) (pre post : List α) :
    (pre ++ post).insertIdx pre.length a = pre ++ a :: post := by
  induction pre with
  | nil => rfl
  | cons b pre ih => simp [ih]

theorem findIdx?_middle {pre : List NodeId} {id : NodeId} (post : List NodeId)
    (h : id ∉ pre) : (pre ++ id :: post).findIdx? (· == id) = some pre.length := by
  induction pre with
  | nil => simp [List.findIdx?_cons]
  | cons a pre ih =>
    rw [List.mem_cons, not_or] at h
    have ha : (a == id) = false := by simpa using Ne.symm h.1
    rw [List.cons_append, List.findIdx?_cons, ha]
    simp [ih h.2]

theorem insertIdx_split {α : Type} {l : List α} {k : Nat} (hk : k ≤ l.length) (a : α) :
    ∃ before after, l = before ++ after ∧ l.insertIdx k a = before ++ a :: after := by
  refine ⟨l.take k, l.drop k, (List.take_append_drop k l).symm, ?_⟩
  have hmiddle := insertIdx_middle a (l.take k) (l.drop k)
  rwa [List.take_append_drop, List.length_take_of_le hk] at hmiddle

/-- The entry at the slot of a logical index stands at that index among the placeable ones, and
behind all of them where there are not that many. -/
theorem placeable_insertIdx_slot (he : e.isPlaceable) (l : List Entry) (k : Nat) :
    (l.insertIdx (slot l k) e).filter (·.isPlaceable) =
      (l.filter (·.isPlaceable)).insertIdx (min k (l.filter (·.isPlaceable)).length) e := by
  fun_induction slot l k with
  | case1 l => simp [he]
  | case2 k => simp [he]
  | case3 x rest count ih =>
    rw [List.insertIdx_succ_cons, List.filter_cons, List.filter_cons, ih]
    by_cases hx : x.isPlaceable
    · have hmin : min (count + 1) ((rest.filter (·.isPlaceable)).length + 1) =
          min count (rest.filter (·.isPlaceable)).length + 1 := by omega
      simp only [hx, if_true, List.length_cons, hmin, List.insertIdx_succ_cons]
    · simp only [hx, Bool.false_eq_true, if_false]

/-- Put a node at an index of a sequence. An index out of range counts as the nearest one in it. -/
def insertClamped (nodes : List NodeId) (index : Int) (node : NodeId) : List NodeId :=
  nodes.insertIdx (max 0 (min index nodes.length)).toNat node

theorem map_insertIdx_slot (he : e.isPlaceable) (l : List Entry) (index : Int) :
    ((l.insertIdx (slot l index.toNat) e).filter (·.isPlaceable)).map (·.node) =
      insertClamped ((l.filter (·.isPlaceable)).map (·.node)) index e.node := by
  have hclamp : min index.toNat (l.filter (·.isPlaceable)).length =
      (max 0 (min index (l.filter (·.isPlaceable)).length)).toNat := by omega
  rw [placeable_insertIdx_slot he, List.map_insertIdx, hclamp, insertClamped, List.length_map]

theorem placeable_addAt (s : Store) (node : NodeId) (state : EntryState) (existsInSource : Bool)
    (index : Int) : (s.addAt node state existsInSource index).placeable =
      if state.isPlaceable then insertClamped s.placeable index node else s.placeable := by
  by_cases hs : state.isPlaceable
  · rw [if_pos hs]
    exact map_insertIdx_slot (e := .fresh node state existsInSource) hs s.entries index
  · have hfresh : (Entry.fresh node state existsInSource).isPlaceable = false :=
      Bool.eq_false_iff.mpr hs
    rw [if_neg hs, placeable, addAt, filter_insertIdx_of_neg hfresh, placeable]

theorem entries_addAt (s : Store) (node : NodeId) (state : EntryState) (existsInSource : Bool)
    (index : Int) : ∃ before after, s.entries = before ++ after ∧
      (s.addAt node state existsInSource index).entries =
        before ++ .fresh node state existsInSource :: after :=
  insertIdx_split (slot_le_length _ _) _

/-- Where the first entry for a node is placeable, it stands for the first place of the node in the
sequence. -/
theorem placeable_purge (h : s.find? node = some e) : (s.purge node).placeable =
    if e.isPlaceable then s.placeable.erase node else s.placeable := by
  obtain ⟨before, after, hs, hnode, hp, hbefore⟩ := find?_split h
  have hout : node ∉ (before.filter (·.isPlaceable)).map (·.node) := by
    intro hmem
    obtain ⟨x, hx, hxn⟩ := List.mem_map.mp hmem
    exact hbefore x (List.mem_filter.mp hx).1 hxn
  rw [placeable, placeable, hp, hs, List.filter_append, List.filter_append, List.map_append,
    List.map_append, List.filter_cons]
  split
  · rw [List.map_cons, hnode, List.erase_append_right _ hout, List.erase_cons_head]
  · rfl

theorem placeable_moveTo (h : s.find? node = some e) (index : Int) :
    (s.moveTo node index).placeable = insertClamped (s.purge node).placeable index node := by
  have hnode : (relocated e).node = node := (relocated_node e).trans (mem_of_find? h).2
  have hmap := map_insertIdx_slot (relocated_isPlaceable e) (s.purge node).entries index
  rw [hnode] at hmap
  simp only [moveTo, h]
  exact hmap

theorem entries_moveTo (h : s.find? node = some e) (index : Int) :
    ∃ before after front back, s.entries = before ++ e :: after ∧ (∀ x ∈ before, x.node ≠ node) ∧
      before ++ after = front ++ back ∧
      (s.moveTo node index).entries = front ++ relocated e :: back := by
  obtain ⟨before, after, hs, -, hp, hbefore⟩ := find?_split h
  obtain ⟨front, back, hrest, hmove⟩ :=
    insertIdx_split (slot_le_length (s.purge node).entries index.toNat) (relocated e)
  refine ⟨before, after, front, back, hs, hbefore, hp.symm.trans hrest, ?_⟩
  simp only [moveTo, h]
  exact hmove

/-- What indices mean: they count the placeable entries only, and one out of range is the nearest
in range. An entry that is added with a state that has no place in the text changes nothing in the
sequence; a move takes the first entry for a node and is counted without it. All other entries stay
as they are, one behind the other. -/
theorem indices_count_placeable (s : Store) (node : NodeId) (index : Int) :
    (∀ (state : EntryState) (existsInSource : Bool),
      (s.addAt node state existsInSource index).placeable =
        (if state.isPlaceable then insertClamped s.placeable index node else s.placeable) ∧
      ∃ before after, s.entries = before ++ after ∧
        (s.addAt node state existsInSource index).entries =
          before ++ .fresh node state existsInSource :: after) ∧
    ∀ e, s.find? node = some e →
      (s.moveTo node index).placeable =
        insertClamped (if e.isPlaceable then s.placeable.erase node else s.placeable) index node ∧
      ∃ before after front back, s.entries = before ++ e :: after ∧
        (∀ x ∈ before, x.node ≠ node) ∧ before ++ after = front ++ back ∧
        (s.moveTo node index).entries = front ++ relocated e :: back := by
  refine ⟨fun state existsInSource ↦ ⟨?_, ?_⟩, fun e he ↦ ⟨?_, ?_⟩⟩
  · exact placeable_addAt s node state existsInSource index
  · exact entries_addAt s node state existsInSource index
  · rw [placeable_moveTo he, placeable_purge he]
  · exact entries_moveTo he index

def mixedStore : Store where
  entries := [.fresh 1 .hidden true, .fresh 2 .existing true, .fresh 3 .toBeRemoved true,
    .fresh 1 .moved true, .fresh 4 .applied false, .fresh 5 .toBeAdded false, .fresh 6 .hidden true]

/-- The hidden entry comes to the end of the sequence, and the other one for its node stays. -/
theorem indices_count_placeable_mixedStore :
    mixedStore.placeable = [2, 1, 5] ∧
    mixedStore.find? 1 = some (.fresh 1 .hidden true) ∧
    (mixedStore.moveTo 1 9).placeable = [2, 1, 5, 1] := by
  have hfind : mixedStore.find? 1 = some (.fresh 1 .hidden true) := by decide
  have hmove := ((indices_count_placeable mixedStore 1 9).2 _ hfind).1
  exact ⟨by decide, hfind, hmove.trans (by decide)⟩

end BuildScript.Store
