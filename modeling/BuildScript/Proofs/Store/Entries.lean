import Mathlib.Data.List.Perm.Basic
import BuildScript.Document.Apply
import BuildScript.Document.Edit

namespace BuildScript

namespace Entry

@[simp]
theorem withdraw_node (e : Entry) : e.withdraw.node = e.node := by
  unfold withdraw; split <;> rfl

@[simp]
theorem withdraw_staged (e : Entry) : e.withdraw.staged = e.staged := by
  unfold withdraw; split <;> rfl

theorem withdraw_state (e : Entry) : e.withdraw.state = .toBeRemoved := by
  unfold withdraw
  split
  · assumption
  · rfl

theorem revert_withdraw (e : Entry) : e.withdraw.revert = e.revert := by
  unfold withdraw
  split
  · rfl
  · next h => simp [revert, h]

theorem revert_state_ne {e : Entry} (h : e.restore ≠ some .toBeRemoved) :
    e.revert.state ≠ .toBeRemoved := by
  obtain ⟨node, state, existsInSource, staged, restore⟩ := e
  cases state <;> cases restore <;> simp_all [revert]
  split <;> simp_all

theorem revert_revert {e : Entry} (h : e.restore ≠ some .toBeRemoved) :
    e.revert.revert = e.revert := by
  have hs := revert_state_ne h
  have hm : e.revert.state ≠ .moved := by simp only [revert]; grind
  generalize he : e.revert = r at hs hm
  have hr : r.restore = none := by rw [← he]; rfl
  obtain ⟨node, state, existsInSource, staged, restore⟩ := r
  simp_all [revert]

theorem revert_moved {e : Entry} (h : e.isPlaceable) (ha : e.state ≠ .toBeAdded) :
    revert { e with state := .moved } = e.revert := by
  obtain ⟨node, state, existsInSource, staged, restore⟩ := e
  cases state <;> simp_all [revert, isPlaceable, EntryState.isPlaceable]

end Entry

namespace Store

variable {s : Store} {e : Entry} {node : NodeId}

theorem slot_le_length (l : List Entry) (count : Nat) : slot l count ≤ l.length := by
  fun_induction slot l count with
  | case1 => omega
  | case2 => omega
  | case3 e rest count ih => simpa only [List.length_cons, Nat.add_le_add_iff_right] using ih

theorem find?_split (h : s.find? node = some e) :
    ∃ before after, s.entries = before ++ e :: after ∧ e.node = node ∧
      (s.purge node).entries = before ++ after ∧ ∀ x ∈ before, x.node ≠ node := by
  obtain ⟨he, before, after, hs, hb⟩ := List.find?_eq_some_iff_append.mp h
  have hb' : ∀ x ∈ before, x.node ≠ node := by
    intro x hx
    simpa using hb x hx
  refine ⟨before, after, hs, by simpa using he, ?_, hb'⟩
  simp only [purge, hs]
  rw [List.eraseP_append_right _ fun x hx ↦ by simpa using hb' x hx]
  simp only [List.eraseP_cons, he, cond_true]

theorem contains_iff : s.contains node = true ↔ node ∈ s.nodes := by
  simp [contains, position?, nodes, List.findIdx?_isSome, List.any_eq_true]

theorem mem_nodes_of_mem (h : e ∈ s.entries) : e.node ∈ s.nodes := List.mem_map_of_mem h

theorem mem_of_find? (h : s.find? node = some e) : e ∈ s.entries ∧ e.node = node := by
  refine ⟨List.mem_of_find?_eq_some h, ?_⟩
  simpa using List.find?_some h

theorem find?_of_mem (hs : s.nodes.Nodup) (h : e ∈ s.entries) : s.find? e.node = some e := by
  obtain ⟨before, after, hsplit⟩ := List.append_of_mem h
  apply List.find?_eq_some_iff_append.mpr
  refine ⟨by simp, before, after, hsplit, ?_⟩
  intro x hx
  simp only [nodes, hsplit, List.map_append, List.map_cons] at hs
  have hne := (List.nodup_append.mp hs).2.2 x.node (List.mem_map_of_mem hx) e.node
    List.mem_cons_self
  simpa using hne

theorem eq_of_node_eq {e' : Entry} (hs : s.nodes.Nodup) (h : e ∈ s.entries) (h' : e' ∈ s.entries)
    (he : e.node = e'.node) : e = e' := by
  have h₁ := find?_of_mem hs h
  rw [he, find?_of_mem hs h'] at h₁
  exact (Option.some.inj h₁).symm

theorem eq_of_find? {e' : Entry} (hs : s.nodes.Nodup) (h : s.find? node = some e)
    (h' : e' ∈ s.entries) (he : e'.node = node) : e' = e := by
  obtain ⟨hmem, hnode⟩ := mem_of_find? h
  exact eq_of_node_eq hs h' hmem (he.trans hnode.symm)

theorem eraseP_eq_filter {l : List Entry} (hl : (l.map Entry.node).Nodup) (node : NodeId) :
    l.eraseP (·.node == node) = l.filter (·.node != node) := by
  induction l with
  | nil => rfl
  | cons e rest ih =>
    obtain ⟨he, hrest⟩ := List.nodup_cons.mp hl
    by_cases hn : e.node = node
    · have hall : ∀ x ∈ rest, (x.node != node) = true := by
        intro x hx
        have hne : x.node ≠ e.node := fun h ↦ he (h ▸ List.mem_map_of_mem hx)
        simpa [hn] using hne
      simp [hn, List.filter_eq_self.mpr hall]
    · simp [hn, ih hrest]

theorem purge_entries (hs : s.nodes.Nodup) (node : NodeId) :
    (s.purge node).entries = s.entries.filter (·.node != node) := eraseP_eq_filter hs node

theorem purge_of_not_mem (h : node ∉ s.nodes) : s.purge node = s := by
  have hall : ∀ e ∈ s.entries, ¬ (e.node == node) = true := by
    intro e he hn
    simp only [beq_iff_eq] at hn
    exact h (hn ▸ mem_nodes_of_mem he)
  simp only [purge, List.eraseP_of_forall_not hall]

theorem nodes_purge_sublist (s : Store) (node : NodeId) : (s.purge node).nodes.Sublist s.nodes :=
  List.eraseP_sublist.map _

theorem not_mem_nodes_purge (hs : s.nodes.Nodup) : node ∉ (s.purge node).nodes := by
  simp [nodes, purge_entries hs]

theorem mem_placeable : node ∈ s.placeable ↔ ∃ e ∈ s.entries, e.isPlaceable ∧ e.node = node := by
  simp [placeable, and_assoc]

theorem mem_inState {state : EntryState} :
    node ∈ s.inState state ↔ ∃ e ∈ s.entries, e.state = state ∧ e.node = node := by
  simp [inState, and_assoc]

theorem mem_stagedNodes :
    node ∈ s.stagedNodes ↔ ∃ e ∈ s.entries, e.staged = true ∧ e.node = node := by
  simp [stagedNodes, and_assoc]

theorem isStaged_of_mem_stagedNodes (hs : s.nodes.Nodup) (h : e ∈ s.entries)
    (hst : e.node ∈ s.stagedNodes) : e.staged = true := by
  obtain ⟨e', he', hstaged, hnode⟩ := mem_stagedNodes.mp hst
  rwa [← eq_of_node_eq hs he' h hnode]

theorem inState_nodup (hs : s.nodes.Nodup) (state : EntryState) : (s.inState state).Nodup :=
  hs.sublist (List.filter_sublist.map _)

theorem placeable_nodup (hs : s.nodes.Nodup) : s.placeable.Nodup :=
  hs.sublist (List.filter_sublist.map _)

theorem mem_add {state : EntryState} {existsInSource : Bool}
    (h : e ∈ (s.add node state existsInSource).entries) :
    e ∈ s.entries ∨ e = .fresh node state existsInSource :=
  (List.mem_append.mp h).imp_right List.mem_singleton.mp

theorem mem_addAt {state : EntryState} {existsInSource : Bool} {index : Int}
    (h : e ∈ (s.addAt node state existsInSource index).entries) :
    e ∈ s.entries ∨ e = .fresh node state existsInSource := by
  have hk : s.realIndex index ≤ s.entries.length := slot_le_length _ _
  exact ((List.mem_insertIdx hk).mp h).symm

theorem nodes_addAt (state : EntryState) (existsInSource : Bool) (index : Int) :
    (s.addAt node state existsInSource index).nodes.Perm (node :: s.nodes) := by
  have hk : s.realIndex index ≤ s.entries.length := slot_le_length _ _
  exact (List.perm_insertIdx (.fresh node state existsInSource) s.entries hk).map (·.node)

@[simp]
theorem nodes_add (state : EntryState) (existsInSource : Bool) :
    (s.add node state existsInSource).nodes = s.nodes ++ [node] := by
  simp [nodes, add, Entry.fresh]

theorem modifyFirst_map_node {f : Entry → Entry} (hf : ∀ e, (f e).node = e.node) (l : List Entry) :
    (modifyFirst node f l).map (·.node) = l.map (·.node) := by
  fun_induction modifyFirst node f l with
  | case1 => rfl
  | case2 e rest h => simp [hf]
  | case3 e rest h ih => simp [ih]

theorem nodes_modifyEntry {f : Entry → Entry} (hf : ∀ e, (f e).node = e.node) :
    (s.modifyEntry node f).nodes = s.nodes := modifyFirst_map_node hf s.entries

theorem mem_modifyFirst {f : Entry → Entry} {l : List Entry} (h : e ∈ modifyFirst node f l) :
    e ∈ l ∨ ∃ e₀ ∈ l, e₀.node = node ∧ e = f e₀ := by
  fun_induction modifyFirst node f l with
  | case1 => exact .inl h
  | case2 e₀ rest hn =>
    rcases List.mem_cons.mp h with rfl | h
    · exact .inr ⟨e₀, List.mem_cons_self, hn, rfl⟩
    · exact .inl (List.mem_cons_of_mem _ h)
  | case3 e₀ rest hn ih =>
    rcases List.mem_cons.mp h with rfl | h
    · exact .inl List.mem_cons_self
    · rcases ih h with h | ⟨e₁, he₁, hn₁, rfl⟩
      · exact .inl (List.mem_cons_of_mem _ h)
      · exact .inr ⟨e₁, List.mem_cons_of_mem _ he₁, hn₁, rfl⟩

def replacement (new : NodeId) (e : Entry) : Entry :=
  { Entry.fresh new (replacementState e.state) false with staged := true }

theorem mem_replaceFirst {old new : NodeId} {l : List Entry} (h : e ∈ replaceFirst old new l) :
    e ∈ l ∨ ∃ e₀ ∈ l, e₀.node = old ∧ (e = e₀.withdraw ∨ e = replacement new e₀) := by
  fun_induction replaceFirst old new l with
  | case1 => exact .inl h
  | case2 e₀ rest hn =>
    rcases List.mem_cons.mp h with rfl | h
    · exact .inr ⟨e₀, List.mem_cons_self, hn, .inr rfl⟩
    · rcases List.mem_cons.mp h with rfl | h
      · exact .inr ⟨e₀, List.mem_cons_self, hn, .inl rfl⟩
      · exact .inl (List.mem_cons_of_mem _ h)
  | case3 e₀ rest hn ih =>
    rcases List.mem_cons.mp h with rfl | h
    · exact .inl List.mem_cons_self
    · rcases ih h with h | ⟨e₁, he₁, hn₁, h⟩
      · exact .inl (List.mem_cons_of_mem _ h)
      · exact .inr ⟨e₁, List.mem_cons_of_mem _ he₁, hn₁, h⟩

theorem withdraw_mem_replaceFirst {old : NodeId} {l : List Entry} (hl : (l.map (·.node)).Nodup)
    (he : e ∈ l) (hold : e.node = old) (new : NodeId) : e.withdraw ∈ replaceFirst old new l := by
  fun_induction replaceFirst old new l with
  | case1 => simp at he
  | case2 e₀ rest hn =>
    rcases List.mem_cons.mp he with rfl | he
    · simp
    · exact absurd (List.mem_map.mpr ⟨e, he, hold.trans hn.symm⟩) (List.nodup_cons.mp hl).1
  | case3 e₀ rest hn ih =>
    have hrest : e ∈ rest := (List.mem_cons.mp he).resolve_left fun h ↦ hn (h ▸ hold)
    exact List.mem_cons_of_mem _ (ih (List.nodup_cons.mp hl).2 hrest)

theorem filter_replaceFirst {old new : NodeId} {l : List Entry} {p : NodeId → Bool}
    (hl : (l.map (·.node)).Nodup) (hold : p old = false) (hnew : p new = true)
    (hp : ∀ e ∈ l, e.node ≠ old → p e.node = true) :
    (replaceFirst old new l).filter (p ·.node) =
      l.map fun e ↦ if e.node = old then replacement new e else e := by
  fun_induction replaceFirst old new l with
  | case1 => rfl
  | case2 e rest hn =>
    have hrest : ∀ e' ∈ rest, e'.node ≠ old := fun e' he' hold ↦
      (List.nodup_cons.mp hl).1 (List.mem_map.mpr ⟨e', he', hold.trans hn.symm⟩)
    have hfilter : rest.filter (p ·.node) = rest :=
      List.filter_eq_self.mpr fun e' he' ↦ hp e' (List.mem_cons_of_mem _ he') (hrest e' he')
    have hmap : (rest.map fun e ↦ if e.node = old then replacement new e else e) = rest :=
      (List.map_congr_left fun e' he' ↦ if_neg (hrest e' he')).trans (List.map_id rest)
    have hgone : ¬ p e.withdraw.node = true := by simp [hn, hold]
    rw [List.filter_cons_of_pos (p := fun e : Entry ↦ p e.node) hnew,
      List.filter_cons_of_neg (p := fun e : Entry ↦ p e.node) hgone, hfilter, List.map_cons,
      if_pos hn, hmap]
    rfl
  | case3 e rest hn ih =>
    obtain ⟨hpe, hprest⟩ := List.forall_mem_cons.mp hp
    rw [List.filter_cons_of_pos (p := fun e : Entry ↦ p e.node) (hpe hn),
      ih (List.nodup_cons.mp hl).2 hprest, List.map_cons, if_neg hn]

theorem nodes_replace {old new : NodeId} (h : old ∈ s.nodes) :
    (s.replace old new).nodes.Perm (new :: s.nodes) := by
  simp only [nodes, replace] at h ⊢
  generalize s.entries = l at h
  fun_induction replaceFirst old new l with
  | case1 => simp at h
  | case2 e rest hn => simp [Entry.fresh]
  | case3 e rest hn ih =>
    have h' : old ∈ rest.map (·.node) := by
      rcases List.mem_cons.mp h with h | h
      · exact absurd h.symm hn
      · exact h
    exact ((ih h').cons e.node).trans (.swap ..)

theorem replace_of_not_mem {old new : NodeId} (h : old ∉ s.nodes) : s.replace old new = s := by
  obtain ⟨l, baseline⟩ := s
  simp only [nodes, replace, Store.mk.injEq, and_true] at h ⊢
  fun_induction replaceFirst old new l with
  | case1 => rfl
  | case2 e rest hn => simp [hn] at h
  | case3 e rest hn ih => rw [ih (fun h' ↦ h (List.mem_cons_of_mem _ h'))]

theorem mem_nodes_replace {old new x : NodeId} :
    x ∈ (s.replace old new).nodes ↔ x ∈ s.nodes ∨ x = new ∧ old ∈ s.nodes := by
  by_cases hold : old ∈ s.nodes
  · rw [(nodes_replace hold).mem_iff, List.mem_cons]
    simp [hold, or_comm]
  · simp [replace_of_not_mem hold, hold]

theorem nodes_mapPicked {p : NodeId → Bool} {f : Entry → Entry} (hf : ∀ e, (f e).node = e.node) :
    (s.mapPicked p f).nodes = s.nodes := by
  simp only [nodes, mapPicked, List.map_map]
  apply List.map_congr_left
  intro e _
  simp only [Function.comp_apply]
  split
  · exact hf e
  · rfl

theorem mem_mapPicked {p : NodeId → Bool} {f : Entry → Entry} (h : e ∈ (s.mapPicked p f).entries) :
    e ∈ s.entries ∨ ∃ e₀ ∈ s.entries, e₀.isPlaceable ∧ p e₀.node ∧ e = f e₀ := by
  obtain ⟨e₀, he₀, rfl⟩ := List.mem_map.mp h
  split
  · next hp =>
    simp only [Bool.and_eq_true] at hp
    exact .inr ⟨e₀, he₀, hp.1, hp.2, rfl⟩
  · exact .inl he₀

def relocated (e : Entry) : Entry := if e.state = .toBeAdded then e else { e with state := .moved }

@[simp]
theorem relocated_node (e : Entry) : (relocated e).node = e.node := by
  unfold relocated; split <;> rfl

@[simp]
theorem relocated_staged (e : Entry) : (relocated e).staged = e.staged := by
  unfold relocated; split <;> rfl

theorem relocated_isPlaceable (e : Entry) : (relocated e).isPlaceable := by
  unfold relocated
  split
  · next h => simp [Entry.isPlaceable, h, EntryState.isPlaceable]
  · rfl

theorem relocated_relocated (e : Entry) : relocated (relocated e) = relocated e := by
  unfold relocated
  split
  · rfl
  · rfl

theorem moveTo_entries (h : s.find? node = some e) (index : Int) :
    ∃ before after k, s.entries = before ++ e :: after ∧ k ≤ (before ++ after).length ∧
      s.moveTo node index = { entries := (before ++ after).insertIdx k (relocated e)
                              baseline := some (s.baseline.getD s.nodes) } := by
  obtain ⟨before, after, hs, -, hp, -⟩ := find?_split h
  simp only [purge] at hp
  refine ⟨before, after, slot (before ++ after) index.toNat, hs, slot_le_length _ _, ?_⟩
  simp only [moveTo, h, hp, relocated]

theorem moveTo_of_find?_eq_none (h : s.find? node = none) (index : Int) :
    s.moveTo node index = s := by
  simp only [moveTo, h]

theorem perm_moveTo (h : s.find? node = some e) (index : Int) :
    ∃ rest, s.entries.Perm (e :: rest) ∧
      (s.moveTo node index).entries.Perm (relocated e :: rest) := by
  obtain ⟨before, after, k, hs, hk, hm⟩ := moveTo_entries h index
  refine ⟨before ++ after, ?_, ?_⟩
  · rw [hs]; exact List.perm_middle
  · rw [hm]; exact List.perm_insertIdx _ _ hk

theorem nodes_moveTo (index : Int) : (s.moveTo node index).nodes.Perm s.nodes := by
  cases h : s.find? node with
  | none => rw [moveTo_of_find?_eq_none h]
  | some e =>
    obtain ⟨rest, hs, hm⟩ := perm_moveTo h index
    have hm' := hm.map Entry.node
    rw [List.map_cons, relocated_node] at hm'
    exact hm'.trans (hs.map Entry.node).symm

theorem mem_moveTo {index : Int} (h : e ∈ (s.moveTo node index).entries) :
    e ∈ s.entries ∨ ∃ e₀ ∈ s.entries, e₀.node = node ∧ e = relocated e₀ := by
  cases hf : s.find? node with
  | none =>
    rw [moveTo_of_find?_eq_none hf] at h
    exact .inl h
  | some e₀ =>
    obtain ⟨rest, hs, hm⟩ := perm_moveTo hf index
    obtain ⟨he₀, hn⟩ := mem_of_find? hf
    rcases List.mem_cons.mp (hm.mem_iff.mp h) with rfl | h
    · exact .inr ⟨e₀, he₀, hn, rfl⟩
    · exact .inl (hs.mem_iff.mpr (List.mem_cons_of_mem _ h))

theorem mem_placeable_moveTo {x : NodeId} (index : Int) (h : x ∈ s.placeable) :
    x ∈ (s.moveTo node index).placeable := by
  cases hf : s.find? node with
  | none => rwa [moveTo_of_find?_eq_none hf]
  | some e =>
    obtain ⟨rest, hs, hm⟩ := perm_moveTo hf index
    obtain ⟨e', he', hp, rfl⟩ := mem_placeable.mp h
    rcases List.mem_cons.mp (hs.mem_iff.mp he') with rfl | he'
    · exact mem_placeable.mpr ⟨relocated e', hm.mem_iff.mpr List.mem_cons_self,
        relocated_isPlaceable e', relocated_node e'⟩
    · exact mem_placeable.mpr ⟨e', hm.mem_iff.mpr (List.mem_cons_of_mem _ he'), hp, rfl⟩

theorem moveBehind_eq_moveTo (node : NodeId) (before : Option NodeId) :
    ∃ index, s.moveBehind node before = s.moveTo node index := by
  cases before with
  | none => exact ⟨0, rfl⟩
  | some b => exact ⟨_, rfl⟩

theorem foldl_moves {P : Store → Prop} {f : Store → NodeId × Option NodeId → Store}
    (hmove : ∀ s node index, P s → node ∈ s.placeable → P (s.moveTo node index))
    (hf : ∀ s p, f s p = s ∨ ∃ index, f s p = s.moveTo p.1 index)
    (l : List (NodeId × Option NodeId)) (hl : ∀ p ∈ l, p.1 ∈ s.placeable) (hs : P s) :
    P (l.foldl f s) := by
  induction l generalizing s with
  | nil => exact hs
  | cons p l ih =>
    rw [List.foldl_cons]
    rcases hf s p with he | ⟨index, he⟩
    · rw [he]
      exact ih (fun q hq ↦ hl q (List.mem_cons_of_mem _ hq)) hs
    · rw [he]
      refine ih (fun q hq ↦ ?_) (hmove s p.1 index hs (hl p List.mem_cons_self))
      exact mem_placeable_moveTo index (hl q (List.mem_cons_of_mem _ hq))

theorem realizeOrder_induction {P : Store → Prop} (current : List NodeId) {target : List NodeId}
    (hmove : ∀ s node index, P s → node ∈ s.placeable → P (s.moveTo node index))
    (ht : ∀ node ∈ target, node ∈ s.placeable) (hs : P s) : P (s.realizeOrder current target) := by
  refine foldl_moves hmove (fun s p ↦ ?_) _ (fun p hp ↦ ht p.1 (List.of_mem_zip hp).1) hs
  obtain ⟨node, before⟩ := p
  obtain ⟨index, hm⟩ := moveBehind_eq_moveTo (s := s) node before
  simp only
  split
  · exact .inr ⟨index, hm⟩
  · exact .inl rfl

end Store

namespace Placement

theorem emit_subset {edges : List (NodeId × NodeId)} {fuel : Nat} {waiting : List (NodeId × Nat)}
    {target : List NodeId} (h : emit edges fuel waiting = some target) :
    ∀ id ∈ target, ∃ count, (id, count) ∈ waiting := by
  induction fuel generalizing waiting target with
  | zero =>
    obtain rfl : [] = target := by simpa [emit] using h
    simp
  | succ fuel ih =>
    simp only [emit] at h
    split at h
    · simp at h
    · next next count hfind =>
      obtain ⟨rest, hrest, rfl⟩ := Option.map_eq_some_iff.mp h
      intro id hid
      rcases List.mem_cons.mp hid with rfl | hid
      · exact ⟨count, List.mem_of_find?_eq_some hfind⟩
      · obtain ⟨c, hc⟩ := ih hrest id hid
        simp only [advance, List.mem_map, List.mem_filter, Prod.mk.injEq] at hc
        obtain ⟨⟨id', c'⟩, ⟨hw, -⟩, rfl, -⟩ := hc
        exact ⟨c', hw⟩

theorem linearize_subset {sequence : List NodeId} {new : NodeId} {rank : NodeId → Option Nat}
    {target : List NodeId} (h : linearize sequence new rank = some target) :
    ∀ id ∈ target, id ∈ sequence := by
  intro id hid
  simp only [linearize] at h
  split at h
  · next hnew =>
    obtain ⟨count, hc⟩ := emit_subset h id hid
    simp only [List.mem_map, List.mem_append, List.mem_filter, List.mem_singleton,
      Prod.mk.injEq] at hc
    obtain ⟨id', hid', rfl, -⟩ := hc
    rcases hid' with ⟨h, -⟩ | rfl
    · exact h
    · exact hnew
  · simp at h

end Placement

end BuildScript
