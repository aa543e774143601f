import BuildScript.Proofs.Store.Entries

namespace BuildScript.Store

variable {s base : Store} {e : Entry} {node new fresh : NodeId}

theorem arrange_perm {order : List NodeId} {l l' : List Entry} (h : l'.Perm l)
    (hn : (l.map Entry.node).Nodup) (ho : ∀ e ∈ l, e.node ∈ order) :
    arrange order l' = arrange order l := by
  induction order generalizing l l' with
  | nil =>
    have hl : l = [] := List.eq_nil_iff_forall_not_mem.mpr fun e he ↦ by simpa using ho e he
    subst hl
    rw [h.eq_nil]
  | cons node order ih =>
    have hn' := (h.map Entry.node).nodup_iff.mpr hn
    have hfind : l'.find? (·.node == node) = l.find? (·.node == node) := by
      cases hl : l.find? (·.node == node) with
      | none =>
        rw [List.find?_eq_none] at hl ⊢
        exact fun x hx ↦ hl x (h.mem_iff.mp hx)
      | some e =>
        have he : e.node = node := by simpa using List.find?_some hl
        have hm := h.mem_iff.mpr (List.mem_of_find?_eq_some hl)
        rw [← he]
        exact find?_of_mem (s := { entries := l' }) hn' hm
    have hrest : arrange order (l'.eraseP (·.node == node)) =
        arrange order (l.eraseP (·.node == node)) := by
      rw [eraseP_eq_filter hn', eraseP_eq_filter hn]
      refine ih (h.filter _) (hn.sublist (List.filter_sublist.map _)) fun e he ↦ ?_
      obtain ⟨he, hne⟩ := List.mem_filter.mp he
      rcases List.mem_cons.mp (ho e he) with h | h
      · simp [h] at hne
      · exact h
    simp only [arrange, hfind]
    cases hl : l.find? (·.node == node) with
    | none =>
      have hskip : ∀ x ∈ l, ¬ (x.node == node) = true := List.find?_eq_none.mp hl
      have hskip' : ∀ x ∈ l', ¬ (x.node == node) = true := fun x hx ↦ hskip x (h.mem_iff.mp hx)
      rw [List.eraseP_of_forall_not hskip, List.eraseP_of_forall_not hskip'] at hrest
      exact hrest
    | some e => exact congrArg (e :: ·) hrest

theorem arrange_sublist {order : List NodeId} {l : List Entry}
    (h : (l.map Entry.node).Sublist order) (ho : order.Nodup) : arrange order l = l := by
  induction order generalizing l with
  | nil => rfl
  | cons node order ih =>
    obtain ⟨hnode, horder⟩ := List.nodup_cons.mp ho
    cases l with
    | nil => simpa [arrange] using ih (l := []) (by simp) horder
    | cons e l =>
      by_cases he : e.node = node
      · have hl : (l.map Entry.node).Sublist order := by
          rw [List.map_cons, he] at h
          exact List.cons_sublist_cons.mp h
        simp [arrange, he, ih hl horder]
      · have hl : ((e :: l).map Entry.node).Sublist order := by
          rw [List.map_cons] at h ⊢
          cases h with
          | cons _ h => exact h
          | cons_cons _ h => exact absurd rfl he
        have hnone : (e :: l).find? (·.node == node) = none := by
          apply List.find?_eq_none.mpr
          intro x hx hxn
          have hmem := hl.subset (List.mem_map_of_mem hx)
          simp only [beq_iff_eq] at hxn
          exact hnode (hxn ▸ hmem)
        rw [arrange, hnone]
        exact ih hl horder

theorem filter_insertIdx_of_neg {α : Type} {l : List α} {a : α} {p : α → Bool} (hp : p a = false)
    (k : Nat) : (l.insertIdx k a).filter p = l.filter p := by
  induction l generalizing k with
  | nil => cases k <;> simp [hp]
  | cons x l ih =>
    cases k with
    | zero => simp [hp]
    | succ k => simp [List.filter_cons, ih k]

def kept (s : Store) : List Entry := (s.entries.filter (!·.staged)).map Entry.revert

theorem reset_eq (s : Store) :
    s.reset = { entries := arrange (s.baseline.getD []) s.kept, baseline := none } := rfl

theorem kept_nodes_sublist (s : Store) : (s.kept.map Entry.node).Sublist s.nodes := by
  simp only [kept, List.map_map]
  exact List.filter_sublist.map _

/-- `s` is `base` with staged changes on top: a reset brings `base` back. Exactly the nodes from
`fresh` on have staged entries, and an order kept for a reset names every other node. -/
structure StagedOver (fresh : NodeId) (base s : Store) : Prop where
  nodup : s.nodes.Nodup
  reset_eq : s.reset = base
  staged_iff : ∀ e ∈ s.entries, e.staged = true ↔ fresh ≤ e.node
  covered : ∀ order, s.baseline = some order → ∀ e ∈ s.entries, e.staged = false → e.node ∈ order

namespace StagedOver

theorem of_kept {s' : Store} (h : StagedOver fresh base s) (hn : s'.nodes.Nodup)
    (hb : s'.baseline = s.baseline) (hk : s'.kept = s.kept)
    (hs : ∀ e ∈ s'.entries, (∃ e₀ ∈ s.entries, e.node = e₀.node ∧ e.staged = e₀.staged) ∨
      (e.staged = true ∧ fresh ≤ e.node)) : StagedOver fresh base s' where
  nodup := hn
  reset_eq := by rw [Store.reset_eq, hb, hk]; exact h.reset_eq
  staged_iff e he := by
    rcases hs e he with ⟨e₀, he₀, hnode, hstaged⟩ | ⟨hstaged, hf⟩
    · rw [hnode, hstaged]; exact h.staged_iff e₀ he₀
    · simp [hstaged, hf]
  covered order ho e he hstaged := by
    rcases hs e he with ⟨e₀, he₀, hnode, hstaged'⟩ | ⟨hstaged', -⟩
    · rw [hnode]
      exact h.covered order (hb ▸ ho) e₀ he₀ (hstaged' ▸ hstaged)
    · simp [hstaged'] at hstaged

theorem add (h : StagedOver fresh base s) (hf : fresh ≤ new) (hn : new ∉ s.nodes) :
    StagedOver fresh base (s.add new .toBeAdded false) := by
  refine h.of_kept ?_ rfl ?_ ?_
  · rw [nodes_add]
    exact List.nodup_append.mpr ⟨h.nodup, by simp, by grind⟩
  · simp [kept, Store.add, Entry.fresh]
  · intro e he
    rcases mem_add he with he | rfl
    · exact .inl ⟨e, he, rfl, rfl⟩
    · exact .inr ⟨rfl, hf⟩

theorem addAt (h : StagedOver fresh base s) (hf : fresh ≤ new) (hn : new ∉ s.nodes) (index : Int) :
    StagedOver fresh base (s.addAt new .toBeAdded false index) := by
  refine h.of_kept ?_ rfl ?_ ?_
  · rw [(nodes_addAt _ _ _).nodup_iff]
    exact List.nodup_cons.mpr ⟨hn, h.nodup⟩
  · rw [kept, Store.addAt, filter_insertIdx_of_neg rfl]
    rfl
  · intro e he
    rcases mem_addAt he with he | rfl
    · exact .inl ⟨e, he, rfl, rfl⟩
    · exact .inr ⟨rfl, hf⟩

theorem remove (h : StagedOver fresh base s) (node : NodeId) :
    StagedOver fresh base (s.remove node) := by
  refine h.of_kept ?_ rfl ?_ ?_
  · rw [Store.remove, nodes_modifyEntry Entry.withdraw_node]
    exact h.nodup
  · simp only [kept, Store.remove, modifyEntry]
    generalize s.entries = l
    fun_induction modifyFirst node Entry.withdraw l with
    | case1 => rfl
    | case2 e rest hn =>
      simp only [List.filter_cons, Entry.withdraw_staged]
      split <;> simp [Entry.revert_withdraw]
    | case3 e rest hn ih =>
      simp only [List.filter_cons]
      split <;> simp [ih]
  · intro e he
    rcases mem_modifyFirst he with he | ⟨e₀, he₀, -, rfl⟩
    · exact .inl ⟨e, he, rfl, rfl⟩
    · exact .inl ⟨e₀, he₀, by simp, by simp⟩

theorem removeAll (h : StagedOver fresh base s) (p : NodeId → Bool) :
    StagedOver fresh base (s.removeAll p) := by
  refine h.of_kept ?_ rfl ?_ ?_
  · rw [Store.removeAll, nodes_mapPicked Entry.withdraw_node]
    exact h.nodup
  · have hr : ∀ e : Entry,
        (if (e.isPlaceable && p e.node) = true then e.withdraw else e).revert = e.revert := by
      intro e
      split
      · exact e.revert_withdraw
      · rfl
    have hs : ∀ e : Entry,
        (if (e.isPlaceable && p e.node) = true then e.withdraw else e).staged = e.staged := by
      intro e
      split
      · exact e.withdraw_staged
      · rfl
    simp only [kept, Store.removeAll, mapPicked, List.filter_map, List.map_map, Function.comp_def,
      hr, hs]
  · intro e he
    rcases mem_mapPicked he with he | ⟨e₀, he₀, -, -, rfl⟩
    · exact .inl ⟨e, he, rfl, rfl⟩
    · exact .inl ⟨e₀, he₀, by simp, by simp⟩

theorem replace (h : StagedOver fresh base s) (hf : fresh ≤ new) (hn : new ∉ s.nodes)
    (old : NodeId) : StagedOver fresh base (s.replace old new) := by
  by_cases hold : old ∈ s.nodes
  · refine h.of_kept ?_ rfl ?_ ?_
    · rw [(nodes_replace hold).nodup_iff]
      exact List.nodup_cons.mpr ⟨hn, h.nodup⟩
    · simp only [kept, Store.replace]
      generalize s.entries = l
      fun_induction replaceFirst old new l with
      | case1 => rfl
      | case2 e rest hn =>
        simp only [List.filter_cons, Entry.withdraw_staged, Bool.not_true, Bool.false_eq_true,
          if_false]
        split <;> simp [Entry.revert_withdraw]
      | case3 e rest hn ih =>
        simp only [List.filter_cons]
        split <;> simp [ih]
    · intro e he
      rcases mem_replaceFirst he with he | ⟨e₀, he₀, -, rfl | rfl⟩
      · exact .inl ⟨e, he, rfl, rfl⟩
      · exact .inl ⟨e₀, he₀, by simp, by simp⟩
      · exact .inr ⟨rfl, hf⟩
  · rwa [replace_of_not_mem hold]

theorem moveTo (h : StagedOver fresh base s) (hp : node ∈ s.placeable) (index : Int) :
    StagedOver fresh base (s.moveTo node index) := by
  obtain ⟨e, he, hplaceable, rfl⟩ := mem_placeable.mp hp
  obtain ⟨rest, hs, hm⟩ := perm_moveTo (find?_of_mem h.nodup he) index
  obtain ⟨before, after, k, hsplit, hk, hmove⟩ := moveTo_entries (find?_of_mem h.nodup he) index
  have hrevert : (relocated e).revert = e.revert := by
    unfold relocated
    split
    · rfl
    · next hne => exact Entry.revert_moved hplaceable hne
  have hb : (s.moveTo e.node index).baseline = some (s.baseline.getD s.nodes) := by rw [hmove]
  refine ⟨(nodes_moveTo index).nodup_iff.mpr h.nodup, ?_, ?_, ?_⟩
  · have hkept : (s.moveTo e.node index).kept.Perm s.kept := by
      refine ((hm.filter _).map _).trans (.trans (.of_eq ?_) ((hs.filter _).map _).symm)
      simp only [List.filter_cons, relocated_staged]
      split <;> simp [hrevert]
    have hnodup := h.nodup.sublist (kept_nodes_sublist s)
    rw [← h.reset_eq, Store.reset_eq, Store.reset_eq, hb, Option.getD_some]
    congr 1
    cases hbase : s.baseline with
    | none =>
      have hall : ∀ e ∈ s.kept, e.node ∈ s.nodes := fun e he ↦
        (kept_nodes_sublist s).subset (List.mem_map_of_mem he)
      rw [Option.getD_none, arrange_perm hkept hnodup hall,
        arrange_sublist (kept_nodes_sublist s) h.nodup]
      rfl
    | some order =>
      refine arrange_perm hkept hnodup fun x hx ↦ ?_
      obtain ⟨e₀, he₀, rfl⟩ := List.mem_map.mp hx
      obtain ⟨he₀, hstaged⟩ := List.mem_filter.mp he₀
      exact h.covered order hbase e₀ he₀ (by simpa using hstaged)
  · intro x hx
    rcases mem_moveTo hx with hx | ⟨e₀, he₀, -, rfl⟩
    · exact h.staged_iff x hx
    · simpa using h.staged_iff e₀ he₀
  · intro order ho x hx hstaged
    obtain rfl : s.baseline.getD s.nodes = order := by simpa [hb] using ho
    obtain ⟨e₀, he₀, hnode, hstaged₀⟩ : ∃ e₀ ∈ s.entries, x.node = e₀.node ∧ e₀.staged = false := by
      rcases mem_moveTo hx with hx | ⟨e₀, he₀, -, rfl⟩
      · exact ⟨x, hx, rfl, hstaged⟩
      · exact ⟨e₀, he₀, by simp, by simpa using hstaged⟩
    rw [hnode]
    cases hbase : s.baseline with
    | none => exact mem_nodes_of_mem he₀
    | some order => exact h.covered order hbase e₀ he₀ hstaged₀

theorem realizeOrder (h : StagedOver fresh base s) {current target : List NodeId}
    (ht : ∀ node ∈ target, node ∈ s.placeable) :
    StagedOver fresh base (s.realizeOrder current target) :=
  realizeOrder_induction _ (fun _ _ index h hp ↦ h.moveTo hp index) ht h

end StagedOver

theorem arrange_perm_self (order : List NodeId) (l : List Entry) : (arrange order l).Perm l := by
  induction order generalizing l with
  | nil => exact .refl l
  | cons node order ih =>
    rw [arrange]
    split
    · next e he =>
      obtain ⟨before, after, hl, -, hp, -⟩ := find?_split (s := { entries := l }) he
      simp only [purge] at hl hp
      rw [hp, hl]
      exact ((ih _).cons e).trans List.perm_middle.symm
    · exact ih l

theorem mem_reset (h : e ∈ s.reset.entries) :
    ∃ e₀ ∈ s.entries, e₀.staged = false ∧ e = e₀.revert := by
  obtain ⟨e₀, he₀, rfl⟩ := List.mem_map.mp ((arrange_perm_self _ _).mem_iff.mp h)
  obtain ⟨he₀, hstaged⟩ := List.mem_filter.mp he₀
  exact ⟨e₀, he₀, by simpa using hstaged, rfl⟩

theorem revert_mem_reset (h : e ∈ s.entries) (hs : e.staged = false) :
    e.revert ∈ s.reset.entries := by
  apply (arrange_perm_self _ _).mem_iff.mpr
  exact List.mem_map_of_mem (List.mem_filter.mpr ⟨h, by simp [hs]⟩)

theorem nodes_reset (s : Store) : ∃ l, s.reset.nodes.Perm l ∧ l.Sublist s.nodes :=
  ⟨_, (arrange_perm_self _ _).map Entry.node, kept_nodes_sublist s⟩

theorem nodup_reset (h : s.nodes.Nodup) : s.reset.nodes.Nodup := by
  obtain ⟨l, hp, hl⟩ := nodes_reset s
  exact hp.nodup_iff.mpr (h.sublist hl)

structure IsSettled (s : Store) : Prop where
  baseline : s.baseline = none
  entries : ∀ e ∈ s.entries, e.staged = false ∧ e.revert = e

theorem isSettled_reset (h : ∀ e ∈ s.entries, e.restore ≠ some .toBeRemoved) :
    s.reset.IsSettled where
  baseline := rfl
  entries e he := by
    obtain ⟨e₀, he₀, hstaged, rfl⟩ := mem_reset he
    exact ⟨hstaged, Entry.revert_revert (h e₀ he₀)⟩

theorem IsSettled.of_sublist {s' : Store} (h : s.IsSettled) (hb : s'.baseline = s.baseline)
    (hs : s'.entries.Sublist s.entries) : s'.IsSettled :=
  ⟨hb.trans h.baseline, fun e he ↦ h.entries e (hs.subset he)⟩

theorem IsSettled.reset_eq_self (h : s.IsSettled) : s.reset = s := by
  have hkept : s.kept = s.entries := by
    have hall : ∀ e ∈ s.entries, (!e.staged) = true := fun e he ↦ by simp [(h.entries e he).1]
    have hrevert : ∀ e ∈ s.entries, e.revert = id e := fun e he ↦ (h.entries e he).2
    rw [kept, List.filter_eq_self.mpr hall, List.map_congr_left hrevert, List.map_id]
  rw [Store.reset_eq, hkept, h.baseline]
  obtain ⟨entries, baseline⟩ := s
  simp [arrange, show baseline = none from h.baseline]

theorem IsSettled.stagedOver (h : s.IsSettled) (hn : s.nodes.Nodup)
    (hf : ∀ node ∈ s.nodes, node < fresh) : StagedOver fresh s s where
  nodup := hn
  reset_eq := h.reset_eq_self
  staged_iff e he := by
    have hlt := hf e.node (mem_nodes_of_mem he)
    simp [(h.entries e he).1, hlt]
  covered order ho := by simp [h.baseline] at ho

end BuildScript.Store
