import BuildScript.Proofs.Reachable

namespace BuildScript

def Edit.isStaged : Edit → Bool
  | .add _ spec | .addAt _ spec _ | .addBeforeAllOfKind _ spec _ | .replace _ _ spec =>
    spec.isProper
  | .remove .. | .removeNamed .. | .moveTo .. | .setValue .. | .setNewLiteral .. => true
  | .addParsed .. | .addParsedAtFront .. | .addParsedResetting .. | .hideNamed .. => false

namespace Node

theorem settledAt_of_bare {i : NodeId} {n n' : Node} (h : n.bare = n'.bare) :
    n.settledAt i = n'.settledAt i := by
  obtain ⟨name, kind, parent, source, modified, holders, edges, pending⟩ := n
  obtain ⟨name', kind', parent', source', modified', holders', edges', pending'⟩ := n'
  simp only [bare, mk.injEq] at h
  obtain ⟨rfl, rfl, rfl, rfl, -, rfl, -⟩ := h
  rfl

theorem settledAt_settledAt (i : NodeId) (n : Node) : (n.settledAt i).settledAt i = n.settledAt i :=
  rfl

end Node

namespace Document

open Store (StagedOver)

variable {U : NodeId → Prop} {d₀ d d' : Document} {b i x : NodeId} {n : Node}
  {s : Store}

/-- `d` is `d₀` with staged changes on top: the later nodes are new, each has a staged entry with
its parent unless it is in `U`, and a reset brings back all the others. -/
structure Staged (U : NodeId → Prop) (d₀ d : Document) : Prop where
  base : Linked d₀
  linked : Linked d
  next : d₀.nextId ≤ d.nextId
  node : ∀ i, i < d₀.nextId → (d.node? i).map (Node.settledAt i) =
    (d₀.node? i).map (Node.settledAt i)
  store : ∀ i s, d.store? i = some s → StagedOver d₀.nextId ((d₀.store? i).getD {}) s
  listed : ∀ x n, d₀.nextId ≤ x → d.node? x = some n →
    U x ∨ ∃ p s, n.parent = some p ∧ d.store? p = some s ∧ x ∈ s.nodes

namespace Staged

theorem alike (h : Staged U d₀ d) (ha : Alike d d') : Staged U d₀ d' where
  base := h.base
  linked := h.linked.alike ha
  next := ha.nextId.symm ▸ h.next
  node i hi := by
    rw [← h.node i hi]
    cases hn : d'.node? i with
    | none =>
      have hb := ha.bare i
      rw [hn, Option.map_none] at hb
      rw [Option.map_eq_none_iff.mp hb.symm]
    | some n =>
      obtain ⟨n₀, hn₀, he⟩ := ha.node? hn
      rw [hn₀, Option.map_some, Option.map_some, Node.settledAt_of_bare he]
  store i s hs := h.store i s (ha.store? i ▸ hs)
  listed x n hx hn := by
    obtain ⟨n₀, hn₀, he⟩ := ha.node? hn
    refine (h.listed x n₀ hx hn₀).imp_right ?_
    rintro ⟨p, s, hp, hs, hmem⟩
    exact ⟨p, s, (congrArg Node.parent he).trans hp, (ha.store? p).trans hs, hmem⟩

theorem mono {U' : NodeId → Prop} (h : Staged U d₀ d)
    (hU : ∀ x n, d₀.nextId ≤ x → d.node? x = some n → U x →
      U' x ∨ ∃ p s, n.parent = some p ∧ d.store? p = some s ∧ x ∈ s.nodes) : Staged U' d₀ d :=
  ⟨h.base, h.linked, h.next, h.node, h.store, fun x n hx hn ↦
    (h.listed x n hx hn).elim (hU x n hx hn) .inr⟩

theorem modifyStore (h : Staged U d₀ d) {f : Store → Store} (hl : Linked (d.modifyStore b f))
    (hf : ∀ s, d.store? b = some s → ∀ base, StagedOver d₀.nextId base s →
      StagedOver d₀.nextId base (f s))
    (hkeep : ∀ s, d.store? b = some s → ∀ x ∈ s.nodes, x ∈ (f s).nodes) :
    Staged U d₀ (d.modifyStore b f) where
  base := h.base
  linked := hl
  next := h.next
  node := h.node
  store i s hs := by
    rcases store?_of_modifyStore hs with ⟨rfl, s₀, hs₀, rfl⟩ | ⟨-, hs⟩
    · exact hf s₀ hs₀ _ (h.store b s₀ hs₀)
    · exact h.store i s hs
  listed x n hx hn := by
    refine (h.listed x n hx hn).imp_right ?_
    rintro ⟨p, s, hp, hs, hmem⟩
    by_cases hb : b = p
    · subst hb
      exact ⟨b, f s, hp, by simp [hs], hkeep s hs x hmem⟩
    · exact ⟨p, s, hp, by simp [hb, hs], hmem⟩

theorem modifyNode (h : Staged U d₀ d) {f : Node → Node} (hl : Linked (d.modifyNode i f))
    (hf : ∀ n, (f n).parent = n.parent ∧ (i < d₀.nextId → (f n).settledAt i = n.settledAt i)) :
    Staged U d₀ (d.modifyNode i f) where
  base := h.base
  linked := hl
  next := by rw [nextId_modifyNode]; exact h.next
  node j hj := by
    rw [← h.node j hj, node?_modifyNode]
    split
    · next hij =>
      subst hij
      cases d.node? i with
      | none => rfl
      | some n => exact congrArg some ((hf n).2 hj)
    · rfl
  store := h.store
  listed x n' hx hn' := by
    rcases node?_of_modifyNode hn' with ⟨rfl, n, hn, rfl⟩ | ⟨-, hn'⟩
    · rw [(hf n).1]
      exact h.listed i n hx hn
    · exact h.listed x n' hx hn'

theorem push (h : Staged U d₀ d) (hl : Linked (d.push n)) :
    Staged (fun x ↦ U x ∨ x = d.nextId) d₀ (d.push n) where
  base := h.base
  linked := hl
  next := by rw [nextId_push]; exact Nat.le_succ_of_le h.next
  node i hi := by
    rw [← h.node i hi, node?_push, if_neg (Nat.ne_of_lt (Nat.lt_of_lt_of_le hi h.next))]
  store i s hs := by
    rcases store?_of_push h.linked.sizes hs with ⟨rfl, rfl⟩ | hs
    · rw [h.base.store?_of_node?_eq_none (node?_of_le h.next)]
      exact ⟨by simp [Store.nodes], rfl, by simp, by simp⟩
    · exact h.store i s hs
  listed x m hx hm := by
    rcases node?_of_push hm with ⟨rfl, -⟩ | hm
    · exact .inl (.inr rfl)
    · rcases h.listed x m hx hm with hU | ⟨p, s, hp, hs, hmem⟩
      · exact .inl (.inl hU)
      · refine .inr ⟨p, s, hp, ?_, hmem⟩
        rw [store?_push h.linked.sizes, if_neg (Nat.ne_of_lt (h.linked.lt_of_store? hs)), hs]

theorem list (h : Staged U d₀ d) (hs : d.store? b = some s) (hn : d.node? x = some n)
    (hp : n.parent = some b) {f : Store → Store} (hl : Linked (d.modifyStore b f))
    (hf : ∀ base, StagedOver d₀.nextId base s → StagedOver d₀.nextId base (f s))
    (hnodes : ∀ y, y ∈ (f s).nodes ↔ y = x ∨ y ∈ s.nodes) :
    Staged (fun y ↦ U y ∧ y ≠ x) d₀ (d.modifyStore b f) := by
  have hmod : Staged U d₀ (d.modifyStore b f) := by
    refine h.modifyStore hl (fun s' hs' ↦ ?_) fun s' hs' y hy ↦ ?_
    · rw [hs] at hs'
      cases hs'
      exact hf
    · rw [hs] at hs'
      cases hs'
      exact (hnodes y).mpr (.inr hy)
  refine hmod.mono fun y m _ hm hU ↦ ?_
  by_cases hy : y = x
  · subst hy
    rw [node?_modifyStore, hn] at hm
    cases hm
    exact .inr ⟨b, f s, hp, by simp [hs], (hnodes y).mpr (.inl rfl)⟩
  · exact .inl ⟨hU, hy⟩

theorem alloc {U : NodeId → Prop} (h : Staged U d₀ d) (hp : parent < d.nextId) {spec : Spec}
    (hspec : spec.isProper) :
    Staged (fun x ↦ U x ∨ x = d.nextId) d₀ (d.alloc parent .toBeAdded spec) := by
  refine ((Linked.alloc_induction .toBeAdded
    (M := fun d _ spec d' ↦ spec.isProper → ∀ U, Staged U d₀ d →
      Staged (fun x ↦ U x ∨ x = d.nextId) d₀ d')
    (N := fun d parent specs d' ↦ Spec.areProper specs →
      (specs ≠ [] → (d.store? parent).isSome) → ∀ U, Staged U d₀ d → Staged U d₀ d')
    (fun d parent spec d' hd _ hlink _ ih hspec U h ↦ ?_) (fun _ _ _ _ _ _ h ↦ h)
    (fun d parent spec rest d' d'' hd hp ha _ ih ih' hspecs hstore U h ↦ ?_) h.linked hp).1 spec).2
    hspec U h
  · obtain ⟨hkind, hchildren⟩ := Bool.and_eq_true_iff.mp (Spec.isProper_eq spec ▸ hspec)
    refine ih hchildren (fun hne ↦ ?_) _ (h.push hlink)
    have hc : spec.kind.isContainer = true := by simpa [hne] using hkind
    rw [hlink.keyed, node?_push, if_pos rfl, Option.any_some]
    exact hc
  · obtain ⟨hspec, hrest⟩ := Bool.and_eq_true_iff.mp hspecs
    obtain ⟨s, hs⟩ := Option.isSome_iff_exists.mp (hstore (by simp))
    have hs' : d'.store? parent = some s := (ha.old.store parent hp (Nat.ne_of_lt hp)).trans hs
    have hnew : d.nextId ∉ s.nodes := hd.not_listed hs (Nat.le_refl _)
    have hstaged := (ih hspec U h).list hs' ha.top rfl (ha.listTree hd hp)
      (fun _ hb ↦ hb.add h.next hnew) fun y ↦ by simp [or_comm]
    refine ih' hrest (fun _ ↦ ?_) U (hstaged.mono fun x _ _ _ hU ↦ .inl (hU.1.resolve_right hU.2))
    simp [Document.listTree, hs']

theorem stage (h : Staged (fun _ ↦ False) d₀ d) (hs : d.store? b = some s) {spec : Spec}
    (hspec : spec.isProper) {list : NodeId → Store → Store}
    (hl : Linked (d.graft b .toBeAdded spec list))
    (hlist : ∀ base, d.nextId ∉ s.nodes → StagedOver d₀.nextId base s →
      StagedOver d₀.nextId base (list d.nextId s))
    (hnodes : (list d.nextId s).nodes.Perm (d.nextId :: s.nodes)) :
    Staged (fun _ ↦ False) d₀ (d.stage b spec list) := by
  have hlt := h.linked.lt_of_store? hs
  obtain ⟨-, hext, hnode⟩ := h.linked.alloc hlt .toBeAdded spec
  have hs' : (d.alloc b .toBeAdded spec).store? b = some s :=
    (hext.store b hlt (Nat.ne_of_lt hlt)).trans hs
  have hnew : d.nextId ∉ s.nodes := h.linked.not_listed hs (Nat.le_refl _)
  have hstaged := (h.alloc hlt hspec).list hs' hnode rfl (hl.alike (Alike.recordEdges _ _).symm)
    (fun base ↦ hlist base hnew) fun y ↦ by simp [hnodes.mem_iff]
  have hmono : Staged (fun _ ↦ False) d₀ _ := hstaged.mono fun x _ _ _ hU ↦
    (hU.2 (hU.1.resolve_left not_false)).elim
  exact (hmono.alike (.recordEdges _ _)).alike (.markModified _ _)

theorem placeNew (h : Staged U d₀ d) (block node : NodeId) :
    Staged U d₀ (d.placeNew block node) := by
  have hl := h.linked.placeNew block node
  rcases d.placeNew_cases block node with ha | ⟨s, target, hs, ht, he⟩
  · exact h.alike ha
  · rw [he] at hl ⊢
    refine h.modifyStore hl (fun s' hs' base hb ↦ ?_) fun s' hs' x hx ↦ ?_
    · rw [hs] at hs'
      cases hs'
      exact hb.realizeOrder ht
    · rw [hs] at hs'
      cases hs'
      refine (Store.realizeOrder_induction _ (P := fun s' ↦ x ∈ s'.nodes)
        (fun s' node index hx _ ↦ ?_)
        ht hx)
      exact (Store.nodes_moveTo index).mem_iff.mpr hx

theorem add (h : Staged (fun _ ↦ False) d₀ d) (hs : d.store? b = some s) {spec : Spec}
    (hspec : spec.isProper) : Staged (fun _ ↦ False) d₀
      ((d.stage b spec fun id s ↦ s.add id .toBeAdded false).placeNew b d.nextId) := by
  refine (h.stage hs hspec (h.linked.graft_add hs .toBeAdded spec false)
    (fun base hnew hb ↦ hb.add h.next hnew) ?_).placeNew b d.nextId
  rw [Store.nodes_add]
  exact List.perm_append_singleton _ _

theorem addAt (h : Staged (fun _ ↦ False) d₀ d) (hs : d.store? b = some s) {spec : Spec}
    (hspec : spec.isProper) (index : Int) : Staged (fun _ ↦ False) d₀
      (d.stage b spec fun id s ↦ s.addAt id .toBeAdded false index) :=
  h.stage hs hspec (h.linked.graft_addAt hs .toBeAdded spec false index)
    (fun _ hnew hb ↦ hb.addAt h.next hnew index) (Store.nodes_addAt _ _ _)

theorem replaceIn (h : Staged U d₀ d) (old : NodeId) {new : NodeId} (hnew : d₀.nextId ≤ new)
    {blocks : List NodeId} (hb : blocks.Nodup) (hl : ∀ b ∈ blocks, d.Links b new)
    (hnot : ∀ b ∈ blocks, ∀ s, d.store? b = some s → new ∉ s.nodes) :
    Staged U d₀ (d.replaceIn old new blocks) := by
  induction blocks generalizing d with
  | nil => exact h
  | cons b blocks ih =>
    obtain ⟨hnb, hrest⟩ := List.nodup_cons.mp hb
    have hlink : Linked (d.replaceIn old new [b]) :=
      h.linked.replaceIn (by simp) (fun c hc ↦ hl c (by simp_all)) fun c hc ↦ hnot c (by simp_all)
    refine ih (h.modifyStore hlink (fun s hs base hbase ↦ ?_) fun s hs x hx ↦ ?_) hrest
      (fun c hc ↦ hl c (List.mem_cons_of_mem _ hc)) fun c hc s hs ↦ ?_
    · exact hbase.replace hnew (hnot b List.mem_cons_self s hs) old
    · exact Store.mem_nodes_replace.mpr (.inl hx)
    · have hne : b ≠ c := fun he ↦ hnb (he ▸ hc)
      rw [store?_modifyStore, if_neg hne] at hs
      exact hnot c (List.mem_cons_of_mem _ hc) s hs

theorem stageReplacement (h : Staged (fun _ ↦ False) d₀ d) {old : NodeId} {e : Entry}
    (hs : d.store? b = some s) (he : s.find? old = some e) (hn : d.node? old = some n)
    (hp : n.parent = some b) {spec : Spec} (hspec : spec.isProper) :
    Staged (fun _ ↦ False) d₀ (d.stageReplacement b old spec) := by
  refine alike ?_ (alike_stageReplacement h.linked hs hn spec)
  have hlt := h.linked.lt_of_store? hs
  obtain ⟨-, hext, hnode⟩ := h.linked.alloc hlt .toBeAdded spec
  have hsucc : Staged (fun x ↦ False ∨ x = d.nextId) d₀ (d.withSuccessor b n spec) := by
    refine (h.alloc hlt hspec).modifyNode (h.linked.withSuccessor hs hn hp spec)
      fun m ↦ ⟨rfl, fun hi ↦ ?_⟩
    exact absurd hi (Nat.not_lt.mpr h.next)
  have hlinks := h.linked.successor_links hs n spec
  have hblocks := h.linked.holders_nodup hn hp
  have hrep := hsucc.replaceIn old h.next hblocks (fun b hb ↦ (hlinks b hb).1)
    fun b hb ↦ (hlinks b hb).2
  refine hrep.mono fun x m _ hm hU ↦ .inr ?_
  obtain rfl : x = d.nextId := hU.resolve_left not_false
  -- the parent had the old node, so now it has the new one
  rw [node?_replaceIn, Document.withSuccessor, node?_modifyNode, if_pos rfl, hnode] at hm
  cases hm
  refine ⟨b, s.replace old d.nextId, rfl, ?_, ?_⟩
  · rw [store?_replaceIn hblocks, if_pos List.mem_cons_self, Document.withSuccessor,
      store?_modifyNode, hext.store b hlt (Nat.ne_of_lt hlt), hs]
    rfl
  · obtain ⟨hmem, rfl⟩ := Store.mem_of_find? he
    exact (Store.nodes_replace (Store.mem_nodes_of_mem hmem)).mem_iff.mpr List.mem_cons_self

theorem stageValue (h : Staged U d₀ d) {node : NodeId} (hn : d.node? node = some n)
    (hset : n.isSettable) (value : Value) : Staged U d₀ (d.stageValue node value) := by
  have hl := h.linked.stageValue hn hset value
  have hpending : Staged U d₀ (d.modifyNode node fun n ↦ { n with pending := some value }) :=
    h.modifyNode ((hl.alike (Alike.markModified _ node).symm).alike (Alike.recordEdges _ node).symm)
      fun _ ↦ ⟨rfl, fun _ ↦ rfl⟩
  exact (hpending.alike (.recordEdges _ node)).alike (.markModified _ node)

theorem edit (h : Staged (fun _ ↦ False) d₀ d) {edit : Edit} (he : edit.isStaged) :
    Staged (fun _ ↦ False) d₀ (edit.run d).2 := by
  have hl := h.linked.edit edit
  have hedited := edit.edited d
  generalize (edit.run d).2 = d' at hedited hl
  cases hedited with
  | unchanged => exact h
  | addParsed | addParsedAtFront | addParsedResetting | hideNamed => simp [Edit.isStaged] at he
  | add spec hs => exact h.add hs he
  | addAt spec index hs => exact h.addAt hs he index
  | addBeforeAllOfKind spec tag index hs => exact h.addAt hs he index
  | @remove block node s e hs =>
    have hrem : Staged (fun _ ↦ False) d₀ (d.modifyStore block (·.remove node)) := by
      refine h.modifyStore ?_ (fun s _ base hb ↦ hb.remove node) fun s _ x hx ↦ ?_
      · exact (hl.alike (Alike.markModified _ block).symm).alike (Alike.dropEdges _ node).symm
      · rwa [Store.remove, Store.nodes_modifyEntry Entry.withdraw_node]
    exact (hrem.alike (.dropEdges _ node)).alike (.markModified _ block)
  | @removeNamed block s name hs =>
    have hrem : Staged (fun _ ↦ False) d₀ (d.modifyStore block (·.removeAll (d.isNamed name))) := by
      refine h.modifyStore ?_ (fun s _ base hb ↦ hb.removeAll _) fun s _ x hx ↦ ?_
      · exact h.linked.modifyStore fun s hs ↦ (h.linked.store block s hs).removeAll _
      · rwa [Store.removeAll, Store.nodes_mapPicked Entry.withdraw_node]
    exact (hrem.alike (.foldl_dropEdges _ _)).alike (.markModified _ block)
  | replace spec hs he' hne hn hp => exact h.stageReplacement hs he' hn hp he
  | @moveTo block node s e n index hs he' hplace hn hp =>
    have hmove : Staged (fun _ ↦ False) d₀ (d.modifyStore block (·.moveTo node index)) := by
      refine h.modifyStore (hl.alike (Alike.markModified _ block).symm) (fun s' hs' base hb ↦ ?_)
        fun s' hs' x hx ↦ ?_
      · rw [hs] at hs'
        cases hs'
        obtain ⟨hmem, hnode⟩ := Store.mem_of_find? he'
        exact hb.moveTo (Store.mem_placeable.mpr ⟨e, hmem, hplace, hnode⟩) index
      · exact (Store.nodes_moveTo index).mem_iff.mpr hx
    exact hmove.alike (.markModified _ block)
  | setValue value hn hset => exact h.stageValue hn hset value
  | setLiteral block name value hn hset => exact h.stageValue hn hset value
  | addLiteral name value hs => exact h.add hs rfl

theorem run (h : Staged (fun _ ↦ False) d₀ d) {edits : List Edit}
    (he : ∀ edit ∈ edits, edit.isStaged) :
    Staged (fun _ ↦ False) d₀ (edits.foldl (fun d edit ↦ (edit.run d).2) d) := by
  induction edits generalizing d with
  | nil => exact h
  | cons edit edits ih =>
    exact ih (h.edit (he edit List.mem_cons_self)) fun e hmem ↦ he e (List.mem_cons_of_mem _ hmem)

end Staged

theorem node?_settleNodes (d : Document) (i : NodeId) :
    d.settleNodes.node? i = (d.node? i).map (Node.settledAt i) := d.nodes.get?_map _ i

structure IsSettled (d : Document) : Prop where
  linked : Linked d
  node : ∀ i n, d.node? i = some n → n.settledAt i = n
  store : ∀ i s, d.store? i = some s → s.IsSettled

theorem isSettled_reset (h : Linked d) : d.reset.IsSettled := by
  refine ⟨h.reset, fun i n hn ↦ ?_, fun i s hs ↦ ?_⟩
  · rw [reset_eq, node?_settleNodes] at hn
    obtain ⟨n₀, -, rfl⟩ := Option.map_eq_some_iff.mp hn
    exact Node.settledAt_settledAt i n₀
  · obtain ⟨s₀, hs₀, hb, hsub⟩ := store?_of_reset h hs
    exact (Store.isSettled_reset (h.store i s₀ hs₀).restored).of_sublist hb hsub

theorem IsSettled.staged (h : d.IsSettled) : Staged (fun _ ↦ False) d d where
  base := h.linked
  linked := h.linked
  next := Nat.le_refl _
  node _ _ := rfl
  store i s hs := by
    have hfits := h.linked.store i s hs
    rw [hs]
    exact (h.store i s hs).stagedOver hfits.nodup fun x hx ↦ (hfits.links x hx).1
  listed x n hx hn := absurd (lt_nextId hn) (Nat.not_lt.mpr hx)

/-- The nodes that a reset takes out are the new ones. -/
theorem Staged.reset_evicts (h : Staged (fun _ ↦ False) d₀ d) :
    ∃ l : List NodeId, d.reset = (l.foldl evict d.resetStores).settleNodes ∧
      (∀ x ∈ l, d₀.nextId ≤ x) ∧ ∀ x n, d₀.nextId ≤ x → d.node? x = some n → x ∈ l := by
  have hr := h.linked.resetStores
  obtain ⟨l, he, hswept⟩ := releaseAll_swept hr (d.discards d.stores.ids)
  refine ⟨l, by rw [Document.reset_eq, he], fun x hx ↦ ?_, fun x n hx hn ↦ ?_⟩
  · obtain ⟨b, t, hmem, -, hbt⟩ := ((hswept x).mp hx).exists_top
    obtain ⟨s, hs, ht⟩ := mem_discards.mp hmem
    obtain ⟨e, he, hstaged, rfl⟩ := Store.mem_stagedNodes.mp ht
    exact Nat.le_trans (((h.store b s hs).staged_iff e he).mp hstaged) (hbt.le hr.older)
  · obtain ⟨p, s, hp, hs, hmem⟩ := (h.listed x n hx hn).resolve_left not_false
    obtain ⟨e, he, rfl⟩ := List.mem_map.mp hmem
    have hstaged := ((h.store p s hs).staged_iff e he).mpr hx
    exact (hswept e.node).mpr (.top
      (mem_discards.mpr ⟨s, hs, Store.mem_stagedNodes.mpr ⟨e, he, hstaged, rfl⟩⟩)
      (isOwnedBy_iff.mpr ⟨n, (node?_resetStores d _).trans hn, hp⟩))

theorem Staged.reset_node? (h : Staged (fun _ ↦ False) d₀ d) (h₀ : d₀.IsSettled) (i : NodeId) :
    d.reset.node? i = d₀.node? i := by
  obtain ⟨l, hreset, hnew, hgone⟩ := h.reset_evicts
  rw [hreset, node?_settleNodes, node?_foldl_evict, node?_resetStores]
  by_cases hi : i < d₀.nextId
  · have hil : i ∉ l := fun hmem ↦ absurd hi (Nat.not_lt.mpr (hnew i hmem))
    rw [if_neg hil, h.node i hi]
    cases hn : d₀.node? i with
    | none => rfl
    | some n => exact congrArg some (h₀.node i n hn)
  · have hi := Nat.not_lt.mp hi
    rw [node?_of_le hi]
    split
    · rfl
    · next hil =>
      cases hn : d.node? i with
      | none => rfl
      | some n => exact absurd (hgone i n hi hn) hil

theorem Staged.reset_store? (h : Staged (fun _ ↦ False) d₀ d) (h₀ : d₀.IsSettled) (i : NodeId) :
    d.reset.store? i = d₀.store? i := by
  have hr := h.linked.resetStores
  obtain ⟨l, hreset, hnew, -⟩ := h.reset_evicts
  have hkeyed : (d.reset.store? i).isSome = (d₀.store? i).isSome := by
    rw [h.linked.reset.keyed, h₀.linked.keyed, h.reset_node? h₀]
  cases hs₀ : d₀.store? i with
  | none => simpa [hs₀] using hkeyed
  | some s₀ =>
    have hi := h₀.linked.lt_of_store? hs₀
    have hil : i ∉ l := fun hmem ↦ absurd hi (Nat.not_lt.mpr (hnew i hmem))
    have hold : ∀ e ∈ s₀.entries, e.node ∉ l := fun e hmem hel ↦
      absurd ((h₀.linked.store i s₀ hs₀).links _ (Store.mem_nodes_of_mem hmem)).1
        (Nat.not_lt.mpr (hnew _ hel))
    have hback : ∀ s, d.resetStores.store? i = some s → s = s₀ := by
      intro s hs
      rw [store?_resetStores] at hs
      obtain ⟨s₁, hs₁, rfl⟩ := Option.map_eq_some_iff.mp hs
      have hbase := (h.store i s₁ hs₁).reset_eq
      rwa [hs₀] at hbase
    have hstore : d.reset.store? i = (d.resetStores.store? i).map (·.without l) := by
      rw [hreset]
      refine hr.store?_evicted hil fun s hs x hx hxl ↦ ?_
      obtain ⟨e, he, rfl⟩ := List.mem_map.mp hx
      exact absurd hxl (hold e (hback s hs ▸ he))
    rw [hstore, hs₀] at hkeyed
    rw [hstore]
    cases hs : d.resetStores.store? i with
    | none => simp [hs] at hkeyed
    | some s =>
      rw [hback s hs, Option.map_some, Store.without_of_forall_not_mem hold]

/-- A reset takes everything off again that has been staged on top of a settled document. -/
theorem Staged.reset_eq (h : Staged (fun _ ↦ False) d₀ d) (h₀ : d₀.IsSettled) (i : NodeId) :
    d.reset.node? i = d₀.node? i ∧ d.reset.store? i = d₀.store? i :=
  ⟨h.reset_node? h₀ i, h.reset_store? h₀ i⟩

/-- Whatever is staged on a document that has just been reset, a second reset brings back the same
nodes, with their values and references, and the same stores. -/
theorem reset_run_staged (hd : d.Reachable) (edits : List Edit)
    (he : ∀ edit ∈ edits, edit.isStaged) (i : NodeId) :
    (edits.foldl (fun d edit ↦ (edit.run d).2) d.reset).reset.node? i = d.reset.node? i ∧
    (edits.foldl (fun d edit ↦ (edit.run d).2) d.reset).reset.store? i = d.reset.store? i := by
  have hsettled := isSettled_reset hd.linked
  exact (hsettled.staged.run he).reset_eq hsettled i

theorem reachable_applicationDocument : applicationDocument.Reachable :=
  .merge libraryDocument (.edit _ (.new ⟨"app"⟩ {}) trivial)

/-- A moved block is removed, a borrowed literal is replaced through its overlay, and so is the
replacement, a block is staged and filled. -/
theorem reset_run_staged_overlay : let edits : List Edit :=
      [.add root (.literal ⟨["a"]⟩ (.integer 0)), .moveTo root 1 0, .remove root 1,
        .replace 3 4 (.literal ⟨["version"]⟩ (.integer 2)),
        .replace 3 6 (.literal ⟨["version"]⟩ (.integer 3)), .setValue 2 (.integer 24),
        .add root { name := ⟨["b"]⟩, kind := .map }, .setNewLiteral 8 "c" (.integer 5)]
    applicationDocument.Reachable ∧ (∀ edit ∈ edits, edit.isStaged) ∧ ∀ i,
      (edits.foldl (fun d edit ↦ (edit.run d).2) applicationDocument.reset).reset.node? i =
        applicationDocument.reset.node? i ∧
      (edits.foldl (fun d edit ↦ (edit.run d).2) applicationDocument.reset).reset.store? i =
        applicationDocument.reset.store? i :=
  ⟨reachable_applicationDocument, by decide,
    reset_run_staged reachable_applicationDocument _ (by decide)⟩

end Document

end BuildScript
