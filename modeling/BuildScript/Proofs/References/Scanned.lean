import BuildScript.Proofs.Ownership
import BuildScript.Proofs.References.Rescan

namespace BuildScript

namespace Store

variable {s : Store} {e : Entry} {old new : NodeId}

theorem withdraw_not_visible (e : Entry) : e.withdraw.isOwnVisible = false := by
  simp only [Entry.isOwnVisible, Entry.isVisible, Entry.withdraw]
  split
  · next h => simp [h, EntryState.isVisible]
  · simp [EntryState.isVisible]

theorem isOwnVisible_of_isPlaceable (h : e.isPlaceable) : e.isOwnVisible := by
  obtain ⟨node, state, existsInSource, staged, restore⟩ := e
  cases state <;>
    simp_all [Entry.isOwnVisible, Entry.isVisible, Entry.isPlaceable, EntryState.isVisible,
      EntryState.isPlaceable]

theorem not_visible_replace (hs : s.nodes.Nodup) (hne : old ≠ new)
    (he : e ∈ (s.replace old new).entries) (hold : e.node = old) : e.isOwnVisible = false := by
  obtain ⟨entries, baseline⟩ := s
  simp only [replace] at he
  simp only [nodes] at hs
  induction entries with
  | nil => simp [replaceFirst] at he
  | cons e₀ rest ih =>
    simp only [List.map_cons, List.nodup_cons] at hs
    rw [replaceFirst] at he
    split at he
    · next h₀ =>
      rcases List.mem_cons.mp he with rfl | he
      · exact absurd (hold.symm.trans rfl) hne
      · rcases List.mem_cons.mp he with rfl | he
        · exact withdraw_not_visible e₀
        · exact absurd (List.mem_map.mpr ⟨e, he, hold.trans h₀.symm⟩) hs.1
    · next h₀ =>
      rcases List.mem_cons.mp he with rfl | he
      · exact absurd hold h₀
      · exact ih hs.2 he

theorem not_visible_remove (hs : s.nodes.Nodup) (he : e ∈ (s.remove old).entries)
    (hold : e.node = old) : e.isOwnVisible = false := by
  obtain ⟨e₀, -, -, rfl⟩ := mem_modifyEntry_self hs he hold
  exact withdraw_not_visible e₀

theorem not_visible_removeAll {p : NodeId → Bool} (hs : s.nodes.Nodup) (hp : old ∈ s.picks p)
    (he : e ∈ (s.removeAll p).entries) (hold : e.node = old) : e.isOwnVisible = false := by
  obtain ⟨e₀, he₀, rfl⟩ := List.mem_map.mp he
  obtain ⟨hmem, hpick⟩ := List.mem_filter.mp hp
  obtain ⟨e₁, he₁, hplace, hn₁⟩ := mem_placeable.mp hmem
  have hnode : e₀.node = old := by
    split at hold
    · exact (Entry.withdraw_node e₀).symm.trans hold
    · exact hold
  obtain rfl := eq_of_node_eq hs he₁ he₀ (hn₁.trans hnode.symm)
  rw [hn₁, hplace, hpick]
  exact withdraw_not_visible e₁

end Store

namespace Document

variable {full : Prop} {ov : List NodeId} {U C : NodeId → Prop} {d d' : Document}
  {b i o p x y : NodeId} {n : Node} {e : Entry} {s : Store} {change : Edit}

/-- A node is in sight: the root, and what a block in sight shows of its own. -/
inductive Shown (d : Document) : NodeId → Prop
  | root : Shown d root
  | entry {b : NodeId} {s : Store} {e : Entry} : Shown d b → d.store? b = some s → e ∈ s.entries →
      e.isOwnVisible → Shown d e.node

def Cut (d : Document) (x : NodeId) : Prop :=
  ∃ i n b, d.node? i = some n ∧ n.parent = some b ∧ Below d i x ∧
    ∀ s e, d.store? b = some s → e ∈ s.entries → e.node = i → e.isOwnVisible = false

namespace Shown

theorem owned (ho : Owned full ov U d) (hs : d.store? b = some s) (he : e ∈ s.entries)
    (hv : e.isOwnVisible) : ∃ n, d.node? e.node = some n ∧ n.parent = some b := by
  obtain ⟨n, hn, hiff⟩ := (ho.entry b s e hs he).owner
  refine ⟨n, hn, hiff.mpr fun ha ↦ ?_⟩
  simp [Entry.isOwnVisible, ha] at hv

theorem isLive (ho : Owned full ov U d) (h : Shown d x) : d.isLive x := by
  cases h with
  | root =>
    obtain ⟨n, hn, -⟩ := ho.linked.root
    exact isLive_iff.mpr ⟨n, hn⟩
  | entry _ hs he hv =>
    obtain ⟨n, hn, -⟩ := owned ho hs he hv
    exact isLive_iff.mpr ⟨n, hn⟩

theorem below_root (ho : Owned full ov U d) (h : Shown d x) : Below d Document.root x := by
  induction h with
  | root => exact .refl
  | entry _ hs he hv ih =>
    obtain ⟨n, hn, hp⟩ := owned ho hs he hv
    exact .step ih hn hp

theorem eq_of_below_root (ho : Owned full ov U d) (hb : Below d x Document.root) :
    Document.root = x := by
  obtain ⟨m, hm, -, hpm, -⟩ := ho.linked.root
  refine hb.eq_of_top fun n hn ↦ ?_
  rw [hm] at hn
  cases hn
  exact hpm

theorem above (ho : Owned full ov U d) (h : Shown d x) (hb : Below d y x) : Shown d y := by
  induction h with
  | root => exact eq_of_below_root ho hb ▸ .root
  | entry hc hs he hv ih =>
    obtain ⟨n, hn, hp⟩ := owned ho hs he hv
    rcases hb.eq_or_parent hn hp with rfl | hb
    · exact .entry hc hs he hv
    · exact ih hb

theorem not_cut (ho : Owned full ov U d) (h : Shown d x) : ¬ Cut d x := by
  rintro ⟨i, n, b, hn, hp, hb, hcut⟩
  have hi := h.above ho hb
  cases hi with
  | root => exact ho.linked.ne_root_of_parent hn hp rfl
  | @entry c s e _ hs he hv =>
    obtain ⟨m, hm, hpm⟩ := owned ho hs he hv
    rw [hn] at hm
    cases hm
    rw [hp] at hpm
    cases hpm
    simp [hcut s e hs he rfl] at hv

theorem mem_ownedSubtree (ho : Owned full ov U d) (h : Shown d x) (hb : Below d y x) :
    x ∈ d.ownedSubtree y := by
  induction h with
  | root =>
    rw [← eq_of_below_root ho hb]
    exact self_mem_ownedSubtree (Shown.root.isLive ho)
  | entry hc hs he hv ih =>
    obtain ⟨n, hn, hp⟩ := owned ho hs he hv
    rcases hb.eq_or_parent hn hp with rfl | hb
    · exact self_mem_ownedSubtree (isLive_iff.mpr ⟨n, hn⟩)
    · exact ownedSubtree_child ho.linked.older (ih hb)
        (mem_ownedChildren.mpr ⟨⟨_, hs, Store.mem_nodes_of_mem he⟩, n, hn, hp⟩)

theorem mem_ownedSubtree_of_le (ho : Owned full ov U d) (hi : Document.root < i)
    (hnew : ∀ x n p, i < x → d.node? x = some n → n.parent = some p → i ≤ p)
    (h : Shown d x) (hx : i ≤ x) : x ∈ d.ownedSubtree i := by
  refine h.mem_ownedSubtree ho ?_
  induction h with
  | root => exact absurd hi (Nat.not_lt.mpr hx)
  | @entry b s e hc hs he hv ih =>
    rcases Nat.eq_or_lt_of_le hx with rfl | hlt
    · exact .refl
    · obtain ⟨n, hn, hp⟩ := owned ho hs he hv
      exact .step (ih (hnew _ n b hlt hn hp)) hn hp

/-- An old node has been in sight before, if each old entry that is shown has been. -/
theorem back (hl : Linked d) (hs : ∀ b s' e', d'.store? b = some s' → e' ∈ s'.entries →
      e'.isOwnVisible → e'.node < d.nextId →
      ∃ s e, d.store? b = some s ∧ e ∈ s.entries ∧ e.node = e'.node ∧ e.isOwnVisible)
    (h : Shown d' x) (hx : x < d.nextId) : Shown d x := by
  induction h with
  | root => exact .root
  | entry _ hs' he' hv ih =>
    obtain ⟨s, e, hs₀, he₀, hnode, hv₀⟩ := hs _ _ _ hs' he' hv hx
    rw [← hnode]
    exact .entry (ih (hl.lt_of_store? hs₀)) hs₀ he₀ hv₀

theorem back_of_alters (hl : Linked d) (ha : Alters d change d') (h : Shown d' x)
    (hx : x < d.nextId) : Shown d x := by
  refine h.back hl (fun b s' e' hs' he' hv hlt ↦ ?_) hx
  cases ha.entry b s' e' hs' he' with
  | kept hs he => exact ⟨_, e', hs, he, rfl, hv⟩
  | withdrawn => simp [Store.withdraw_not_visible] at hv
  | hidden => simp [Entry.isOwnVisible, Entry.isVisible, EntryState.isVisible] at hv
  | @moved s e hs he hp =>
    exact ⟨s, e, hs, he, (Store.relocated_node e).symm, Store.isOwnVisible_of_isPlaceable hp⟩
  | parsed _ hx => exact absurd hlt (Nat.not_lt.mpr hx)
  | staged _ hx => exact absurd hlt (Nat.not_lt.mpr hx)
  | replacing => exact absurd hlt (Nat.lt_irrefl _)

end Shown

theorem Alike.ownedSubtree (h : Alike d d') (i : NodeId) :
    d'.ownedSubtree i = d.ownedSubtree i := by
  have hown : ∀ x b, d'.isOwnedBy x b = d.isOwnedBy x b := by
    intro x b
    have hb := congrArg (Option.map Node.parent) (h.bare x)
    simp only [Option.map_map] at hb
    have hp : (d'.node? x).map Node.parent = (d.node? x).map Node.parent := hb
    simp only [isOwnedBy, ← Option.any_map (f := Node.parent) (p := (· == some b)), hp]
  have hchildren : ∀ b, d'.ownedChildren b = d.ownedChildren b := fun b ↦ by
    simp only [ownedChildren, entries, h.store?, hown]
  have hsub : ∀ fuel i, d'.subtree fuel i = d.subtree fuel i := by
    intro fuel
    induction fuel with
    | zero => exact fun _ ↦ rfl
    | succ fuel ih =>
      intro i
      rw [subtree, subtree, hchildren, funext ih]
  rw [Document.ownedSubtree, Document.ownedSubtree, h.isLive, hsub, h.size]

/-- The first node of a new tree is the only one with an older parent. -/
theorem Linked.parent_of_alloc (h : Linked d) (hb : b < d.nextId) (state : EntryState) (spec : Spec)
    (hx : d.nextId < x) (hn : (d.alloc b state spec).node? x = some n) (hp : n.parent = some p) :
    d.nextId ≤ p := by
  have hhead := h.pushHead hb state spec
  have hnum : Numbered (d.nextId + 1) d.nextId state (d.alloc b state spec) := by
    rw [alloc_eq, ← nextId_push d (headNode b state spec)]
    exact (Numbered.numbering hhead (by simp)).2 _ (.start hhead d.nextId state) (Nat.le_refl _)
      (.inr rfl)
  rcases (hnum.node x n hx hn).2.2.2 p hp with hle | rfl
  · exact Nat.le_of_succ_le hle
  · exact Nat.le_refl _

def Scanned (d : Document) : Prop := ∀ x n, Shown d x → d.node? x = some n → n.IsScanned x

theorem Scanned.step (h : Scanned d) (hr : Rescans C d d') (hC : ∀ x, Shown d' x → ¬ C x)
    (hs : ∀ x, Shown d' x → x < d.nextId → Shown d x) : Scanned d' := by
  intro x n' hx hn'
  rcases hr x n' hn' with hc | hscan | ⟨n, hn, hrefers⟩
  · exact absurd hc (hC x hx)
  · exact hscan
  · exact hrefers.isScanned (h x n (hs x hx (lt_nextId hn)) hn)

/-- What may be out of step after a change: nodes out of sight, and new ones that are not found. -/
def Stale (d d' : Document) (x : NodeId) : Prop :=
  Cut d' x ∨ d.nextId ≤ x ∧ x ∉ d'.ownedSubtree d.nextId

/-- What a change leaves to be scanned is out of sight, and only the first new node has an older
parent. -/
structure Catches (d d' : Document) : Prop where
  rescans : Rescans (Stale d d') d d'
  head : ∀ x n p, d.nextId < x → d'.node? x = some n → n.parent = some p → d.nextId ≤ p

theorem Scanned.of_alters (h : Scanned d) (hl : Linked d) (ha : Alters d change d')
    (ho : Owned full ov U d') (hc : Catches d d') : Scanned d' := by
  have hroot : root < d.nextId := by
    obtain ⟨n, hn, -⟩ := hl.root
    exact lt_nextId hn
  refine h.step hc.rescans (fun x hx hstale ↦ ?_) fun x hx hlt ↦ hx.back_of_alters hl ha hlt
  rcases hstale with hcut | ⟨hle, hnot⟩
  · exact hx.not_cut ho hcut
  · exact hnot (hx.mem_ownedSubtree_of_le ho hroot hc.head hle)

theorem Cut.alike (h : Alike d d') (hx : Cut d x) : Cut d' x := by
  obtain ⟨i, n, b, hn, hp, hb, hs⟩ := hx
  obtain ⟨n', hn', he⟩ := h.symm.node? hn
  exact ⟨i, n', b, hn', (Node.fields_of_bare he).1.symm.trans hp, h.below.mpr hb,
    fun s e hs' ↦ hs s e ((h.store? b).symm.trans hs')⟩

theorem Rescans.stale_markModified {d₀ : Document} (hr : Rescans (Stale d₀ d) d₀ d) (b : NodeId) :
    Rescans (Stale d₀ (d.markModified b)) d₀ (d.markModified b) := by
  have ha := Alike.markModified d b
  refine (hr.trans (.markModified d b)).mono fun x _ hx ↦ hx.imp (·.alike ha) fun ⟨hle, hnot⟩ ↦ ?_
  exact ⟨hle, by rwa [ha.ownedSubtree]⟩

namespace Catches

theorem of_cut (hnext : d'.nextId = d.nextId) (hr : Rescans (Cut d') d d') : Catches d d' where
  rescans := hr.mono fun _ _ ↦ .inl
  head _ _ _ hx hn := absurd (lt_nextId hn) (Nat.not_lt.mpr (hnext ▸ Nat.le_of_lt hx))

theorem markModified {d₀ : Document} (h : Catches d₀ d) (b : NodeId) :
    Catches d₀ (d.markModified b) where
  rescans := h.rescans.stale_markModified b
  head x n p hx hn hp := by
    obtain ⟨n₀, hn₀, he⟩ := (Alike.markModified d b).node? hn
    exact h.head x n₀ p hx hn₀ ((Node.fields_of_bare he).1.symm.trans hp)

theorem graft (h : Linked d) (hs : d.store? b = some s) (state : EntryState) (spec : Spec)
    (list : NodeId → Store → Store) : Catches d (d.graft b state spec list) := by
  have hlt := h.lt_of_store? hs
  have ha : Alike ((d.alloc b state spec).modifyStore b (list d.nextId))
    (d.graft b state spec list) := .recordEdges _ _
  have hr : Rescans (d.nextId ≤ ·) d ((d.alloc b state spec).modifyStore b (list d.nextId)) :=
    (Rescans.alloc h hlt state spec).trans (.of_nodes rfl)
  refine ⟨(hr.recordEdges d.nextId).mono fun x _ hx ↦ .inr ⟨hx.1, ?_⟩, fun x n p hx hn hp ↦ ?_⟩
  · rw [ha.ownedSubtree]
    exact hx.2
  · obtain ⟨n₀, hn₀, he⟩ := ha.node? hn
    exact h.parent_of_alloc hlt state spec hx hn₀ ((Node.fields_of_bare he).1.symm.trans hp)

/-- A change to one store takes everything below the nodes in `l` out of sight, and their edges are
dropped. -/
theorem drop {f : Store → Store} {l : List NodeId} (hs : d.store? b = some s)
    (hl : ∀ x ∈ l, ∃ n, d.node? x = some n ∧ n.parent = some b)
    (hf : ∀ x ∈ l, ∀ e ∈ (f s).entries, e.node = x → e.isOwnVisible = false) :
    Catches d ((l.foldl dropEdges (d.modifyStore b f)).markModified b) := by
  have hr : Rescans (fun y ↦ ∃ x ∈ l, Below (d.modifyStore b f) x y) d (d.modifyStore b f) :=
    .of_nodes rfl
  have ha := Alike.foldl_dropEdges l (d.modifyStore b f)
  have hnext : (l.foldl dropEdges (d.modifyStore b f)).nextId = d.nextId := ha.nextId
  refine markModified (of_cut hnext ((hr.trans (.foldl_dropEdges l _)).mono fun y _ hy ↦ ?_)) b
  obtain ⟨x, hx, hb⟩ := hy
  obtain ⟨n, hn, hp⟩ := hl x hx
  refine Cut.alike ha ⟨x, n, b, hn, hp, hb, fun s' e hs' he hnode ↦ ?_⟩
  rw [store?_modifyStore, if_pos rfl, hs] at hs'
  cases hs'
  exact hf x hx e he hnode

theorem stageValue (hn : d.node? x = some n) (value : Value) :
    Catches d (d.stageValue x value) := by
  let d₁ := d.modifyNode x fun n ↦ { n with pending := some value }
  have hr : Rescans (· = x) d d₁ := .modifyNode fun _ _ ↦ .inl rfl
  have hlive : d₁.isLive x := by
    simp [d₁, Document.isLive, hn]
  have hnext : (d₁.recordEdges x).nextId = d.nextId :=
    (Alike.recordEdges d₁ x).nextId.trans (nextId_modifyNode ..)
  refine markModified (of_cut hnext ((hr.recordEdges x).mono fun y _ hy ↦ ?_)) x
  obtain ⟨rfl, hnot⟩ := hy
  exact absurd (self_mem_ownedSubtree hlive) hnot

end Catches

theorem Rescans.foldl_holders (l : List NodeId) (old new : NodeId) (d : Document) :
    Rescans C d (l.foldl (fun d holder ↦
      if (d.store? holder).any (·.contains old) then
        (d.modifyStore holder (·.replace old new)).markModified holder
      else d) d) := by
  refine List.foldlRecOn (motive := Rescans C d) l _ (.refl C d) fun d' h b _ ↦ h.trans ?_
  split
  · exact (Rescans.of_nodes rfl).trans (.markModified _ b)
  · exact .refl C d'

/-- Before the edges are dropped and scanned, only the new nodes are out of step. -/
theorem exists_rescans_stageReplacement (h : Linked d) (hb : b < d.nextId) {old : NodeId}
    (hn : d.node? old = some n) (spec : Spec) : ∃ d₁, Rescans (d.nextId ≤ ·) d d₁ ∧
      d.stageReplacement b old spec =
        ((d₁.dropEdges old).recordEdges d.nextId).markModified b := by
  obtain ⟨-, hext, -⟩ := h.alloc hb .toBeAdded spec
  have hold : (d.alloc b .toBeAdded spec).node? old = some n :=
    (hext.node old (lt_nextId hn)).trans hn
  have halloc := Rescans.alloc h hb .toBeAdded spec
  simp only [stageReplacement, putInPlace, node?_modifyStore, hold, Option.map_some,
    Option.getD_some]
  refine ⟨_, ?_, rfl⟩
  generalize d.alloc b .toBeAdded spec = d₁ at halloc
  have hlist : Rescans (d.nextId ≤ ·) d₁ (d₁.modifyStore b (·.replace old d.nextId)) :=
    .of_nodes rfl
  exact ((halloc.trans hlist).trans (.foldl_holders n.holders old d.nextId _)).trans
    (.modifyNode fun _ _ ↦ .inl (Nat.le_refl _))

theorem store?_replaced (h : Linked d) (hs : d.store? b = some s) {old : NodeId}
    (hn : d.node? old = some n) (hp : n.parent = some b) (spec : Spec) :
    (d.replaced b old n spec).store? b = some (s.replace old d.nextId) := by
  have hlt := h.lt_of_store? hs
  obtain ⟨-, hext, -⟩ := h.alloc hlt .toBeAdded spec
  rw [replaced, store?_replaceIn (h.holders_nodup hn hp), if_pos List.mem_cons_self, withSuccessor,
    store?_modifyNode, hext.store b hlt (Nat.ne_of_lt hlt), hs]
  rfl

theorem Catches.stageReplacement (h : Linked d) (hs : d.store? b = some s) {old : NodeId}
    (hn : d.node? old = some n) (hp : n.parent = some b) (spec : Spec) :
    Catches d (d.stageReplacement b old spec) := by
  have hlt := h.lt_of_store? hs
  have halike := alike_stageReplacement h hs hn spec
  obtain ⟨-, hext, -⟩ := h.alloc hlt .toBeAdded spec
  obtain ⟨n', hn', hp'⟩ : ∃ n', (d.stageReplacement b old spec).node? old = some n' ∧
      n'.parent = some b :=
    (succeeded_stageReplacement h hs hn hp spec).node_forth
      ((hext.node old (lt_nextId hn)).trans hn)
      |>.imp fun m hm ↦ ⟨hm.1, hm.2.trans hp⟩
  refine ⟨?_, fun x m p hx hm hpar ↦ ?_⟩
  · obtain ⟨d₁, hr, heq⟩ := exists_rescans_stageReplacement h hlt hn spec
    rw [heq] at halike hn' ⊢
    have hdrop : Rescans (fun x ↦ d.nextId ≤ x ∨ Below d₁ old x) d (d₁.dropEdges old) :=
      (hr.mono fun _ _ ↦ .inl).trans ((Rescans.dropEdges d₁ old).mono fun _ _ ↦ .inr)
    have ha₁ :
        Alike (d₁.dropEdges old) (((d₁.dropEdges old).recordEdges d.nextId).markModified b) :=
      (Alike.recordEdges _ _).trans (.markModified _ b)
    refine ((hdrop.recordEdges d.nextId).trans (.markModified _ b)).mono fun x _ hx ↦ ?_
    rcases hx with ⟨hle | hbelow, hnot⟩
    · exact .inr ⟨hle, by rwa [ha₁.ownedSubtree]⟩
    · refine .inl ⟨old, n', b, hn', hp', ((Alike.dropEdges d₁ old).trans ha₁).below.mpr hbelow,
        fun s' e hs' he hnode ↦ ?_⟩
      rw [halike.store?, store?_replaced h hs hn hp spec] at hs'
      cases hs'
      exact Store.not_visible_replace (h.store b s hs).nodup (Nat.ne_of_lt (lt_nextId hn)) he hnode
  · obtain ⟨m₁, hm₁, he⟩ := halike.node? hm
    obtain ⟨m₀, hm₀, hpar₀, -⟩ := node?_replaced hm₁
    exact h.parent_of_alloc hlt .toBeAdded spec hx hm₀
      (hpar₀.symm.trans ((Node.fields_of_bare he).1.symm.trans hpar))

namespace Scanned

/-- A new node may move others in its block, and what is shown there stays the same. -/
theorem placeNew (h : Scanned d) (hl : Linked d) (b x : NodeId) : Scanned (d.placeNew b x) := by
  refine h.step (C := fun _ ↦ False) (.of_nodes (nodes_placeNew d b x)) (fun _ _ hf ↦ hf)
    fun y hy hlt ↦ hy.back hl (fun c s' e' hs' he' hv _ ↦ ?_) hlt
  rcases d.placeNew_cases b x with ha | ⟨s, target, hs, ht, heq⟩
  · exact ⟨s', e', (ha.store? c).symm.trans hs', he', rfl, hv⟩
  · rw [heq, store?_modifyStore] at hs'
    split at hs'
    · next hbc =>
      subst hbc
      rw [hs] at hs'
      cases hs'
      rcases Store.mem_realizeOrder (hl.store b s hs).nodup ht he' with he | ⟨e, he, hp, rfl⟩
      · exact ⟨s, e', hs, he, rfl, hv⟩
      · exact ⟨s, e, hs, he, (Store.relocated_node e).symm, Store.isOwnVisible_of_isPlaceable hp⟩
    · exact ⟨s', e', hs', he', rfl, hv⟩

theorem graft (h : Scanned d) (hl : Linked d) (hs : d.store? b = some s) (spec : Spec)
    {state : EntryState} {list : NodeId → Store → Store}
    (ha : Alters d change (d.graft b state spec list))
    (ho : Owned full ov U (d.graft b state spec list)) : Scanned (d.graft b state spec list) :=
  h.of_alters hl ha ho (.graft hl hs state spec list)

theorem stage_add (h : Scanned d) (ho : Owned full ov (fun _ ↦ False) d)
    (hs : d.store? b = some s) (spec : Spec) (hspec : NeedsContainer full ov d b → spec.isProper) :
    Scanned ((d.stage b spec fun id s ↦ s.add id .toBeAdded false).placeNew b d.nextId) := by
  have hl := ho.linked
  obtain ⟨ha, hl', -⟩ :=
    alters_stage (.add b spec) hl hs spec (hl.graft_add hs .toBeAdded spec false)
    (fun e he ↦ by simpa [Store.add] using he) fun _ ↦ rfl
  have ho' : Owned full ov (fun _ ↦ False) (d.stage b spec fun id s ↦ s.add id .toBeAdded false) :=
    (ho.graft_add hs (by simp) (by simp) hspec false).alike (.markModified _ b)
  have hstage := h.of_alters hl ha ho' (Catches.graft hl hs _ spec _ |>.markModified b)
  exact hstage.placeNew hl' b d.nextId

theorem stage_addAt (h : Scanned d) (ho : Owned full ov (fun _ ↦ False) d)
    (hs : d.store? b = some s) (spec : Spec) (hspec : NeedsContainer full ov d b → spec.isProper)
    (index : Int) : Scanned (d.stage b spec fun id s ↦ s.addAt id .toBeAdded false index) :=
  have ha : Alters d (.addAt b spec index) _ := alters_addAt ho.linked hs spec index
  h.of_alters ho.linked ha (ho.addAt hs hspec index)
    (Catches.graft ho.linked hs _ spec _ |>.markModified b)

theorem edit (h : Scanned d) (ho : Owned full ov (fun _ ↦ False) d) {edit : Edit}
    (hmain : InMainTree d edit) (hproper : full → edit.isProper) : Scanned (edit.run d).2 := by
  have hl := ho.linked
  have halters := alters hl edit
  have howned := ho.edit hmain hproper
  have hspec : ∀ b ∈ edit.block?, NeedsContainer full ov d b → edit.isProper := by
    rintro b hb (hf | ⟨o, hov, hob⟩)
    · exact hproper hf
    · exact absurd hob
        (ho.not_below_of_main ((mem_lineage hl.older).mp (hmain b hb)).2.2 o hov)
  have hedited := edit.edited d
  generalize (edit.run d).2 = d' at hedited halters howned
  cases hedited with
  | unchanged => exact h
  | addParsed spec hs => exact h.graft hl hs spec halters howned
  | addParsedAtFront spec hs => exact h.graft hl hs spec halters howned
  | @addParsedResetting block s spec name hs =>
    have hhide : (d.hideNamed block name).store? block = some (s.hideAll (d.isNamed name)) := by
      rw [Document.hideNamed, store?_modifyStore, if_pos rfl, hs]
      rfl
    have hcatch := Catches.graft (hl.hideNamed block name) hhide .existing spec
      fun id s ↦ s.add id .existing spec.isBacked
    exact h.of_alters hl halters howned
      ⟨(Rescans.of_nodes rfl).trans hcatch.rescans, hcatch.head⟩
  | add spec hs => exact h.stage_add ho hs spec (hspec _ rfl)
  | addAt spec index hs => exact h.stage_addAt ho hs spec (hspec _ rfl) index
  | addBeforeAllOfKind spec tag index hs =>
    exact h.stage_addAt ho hs spec (hspec _ rfl) index
  | @remove block node s e hs he ha =>
    obtain ⟨hmem, hnode⟩ := Store.mem_of_find? he
    obtain ⟨n, hn, hiff⟩ := (ho.entry block s e hs hmem).owner
    rw [hnode] at hn
    refine h.of_alters hl halters howned
      (.drop (l := [node]) hs (fun x hx ↦ ?_) fun x hx e' he' hx' ↦ ?_)
    · rw [List.mem_singleton.mp hx]
      exact ⟨n, hn, hiff.mpr ha⟩
    · rw [List.mem_singleton.mp hx] at hx'
      exact Store.not_visible_remove (hl.store block s hs).nodup he' hx'
  | @removeNamed block s name hs =>
    refine h.of_alters hl halters howned (.drop hs (fun x hx ↦ ?_) fun x hx e he hnode ↦
      Store.not_visible_removeAll (hl.store block s hs).nodup hx he hnode)
    obtain ⟨e, he, hp, rfl⟩ := Store.mem_placeable.mp (List.mem_filter.mp hx).1
    exact Shown.owned ho hs he (Store.isOwnVisible_of_isPlaceable hp)
  | @hideNamed block s name hs =>
    exact h.of_alters hl halters howned (.of_cut rfl (.of_nodes rfl))
  | replace spec hs he ha hn hp =>
    exact h.of_alters hl halters howned (.stageReplacement hl hs hn hp spec)
  | @moveTo block node s e n index =>
    have hcatch : Catches d (d.modifyStore block (·.moveTo node index)) :=
      .of_cut rfl (.of_nodes rfl)
    exact h.of_alters hl halters howned (hcatch.markModified block)
  | setValue value hn => exact h.of_alters hl halters howned (.stageValue hn value)
  | setLiteral block name value hn => exact h.of_alters hl halters howned (.stageValue hn value)
  | addLiteral name value hs => exact h.stage_add ho hs _ fun _ ↦ rfl

theorem apply {σ : Type} (h : Scanned d) (hl : Linked d) (w : Writer σ) (st : σ) :
    Scanned (d.apply w st).document := by
  refine h.step (Commits.apply hl w st).rescans (fun _ _ hf ↦ hf) fun x hx hlt ↦
    hx.back hl (fun b s' e' hs' he' hv _ ↦ ?_) hlt
  obtain ⟨s, e, hs, he, hunstages⟩ := (OnlyUnstages.apply hl w st).entry b s' e' hs' he'
  refine ⟨s, e, hs, he, hunstages.node.symm, ?_⟩
  rcases hunstages.state with hst | ⟨-, hst⟩
  · simpa only [Entry.isOwnVisible, Entry.isVisible, hst] using hv
  · rcases hst with hst | ⟨hst, -⟩ <;>
      simp [Entry.isOwnVisible, Entry.isVisible, EntryState.isVisible, hst]

/-- A reset scans everything again. -/
theorem reset (hl : Linked d) : Scanned d.reset := by
  intro x n _ hn
  obtain ⟨n₀, -, rfl⟩ := node?_reset hl hn
  rfl

end Scanned

section Merge

/-- While an overlay is copied, what is not scanned yet lies in it. -/
structure Copied (o : NodeId) (d d' : Document) : Prop where
  rescans : Rescans (o ≤ ·) d d'
  below : ∀ x, o ≤ x → d'.isLive x → Below d' o x

structure ScannedAbove (o : NodeId) (d d' : Document) : Prop where
  rescans : Rescans (Below d' o) d d'
  top : ∃ n, d'.node? o = some n ∧ n.parent = none

theorem Rescans.supersede (d : Document) (source : DocumentId) :
    Rescans C d (d.supersede source).2 := by
  unfold Document.supersede
  split
  · exact .refl C d
  · refine .of_lost fun x n' hn' ↦ ?_
    dsimp only at hn'
    have hn := node?_of_release hn'
    exact hn

theorem Copied.enroll (h : Copied o d d') (hl : Linked d') (hle : o ≤ b)
    (hs : d'.store? b = some s) (hp : n.parent = some b) : Copied o d (d'.enroll b n) := by
  have hb : d'.isLive b := hl.isLive_of_store? hs
  have hself : (d'.enroll b n).node? d'.nextId = some n := by rw [node?_enroll, if_pos rfl]
  refine ⟨h.rescans.trans fun x n' hn' ↦ ?_, fun x hx hlive ↦ ?_⟩
  · rcases node?_of_enroll hn' with ⟨rfl, -⟩ | hn'
    · exact .inl (Nat.le_trans hle (Nat.le_of_lt (hl.lt_of_store? hs)))
    · exact .inr (.inr ⟨n', hn', .refl n'⟩)
  · obtain ⟨n', hn'⟩ := isLive_iff.mp hlive
    rcases node?_of_enroll hn' with ⟨rfl, -⟩ | hn'
    · exact .step ((h.below b hle hb).enroll b n) hself hp
    · exact (h.below x hx (isLive_iff.mpr ⟨n', hn'⟩)).enroll b n

theorem ScannedAbove.enroll (h : ScannedAbove o d d') (hl : Linked d') (name : String)
    (kind : BlockKind) : ScannedAbove o d (d'.enroll b (emptyBlock b name kind)) := by
  have hext : Extends b d' (d'.enroll b (emptyBlock b name kind)) := .enroll hl b _
  obtain ⟨m, hm, hp⟩ := h.top
  refine ⟨fun x n' hn' ↦ ?_, m, (hext.node o (lt_nextId hm)).trans hm, hp⟩
  by_cases hx : x = d'.nextId
  · rw [node?_enroll, if_pos hx] at hn'
    cases hn'
    exact .inr (.inl rfl)
  · rw [node?_enroll, if_neg hx] at hn'
    exact (h.rescans x n' hn').imp_left (hext.below hl (lt_nextId hn')).mpr

theorem ScannedAbove.lend (h : ScannedAbove o d d') (b x : NodeId) :
    ScannedAbove o d (d'.lend b x) := by
  have hforth :
      ∀ y n, d'.node? y = some n → ∃ n', (d'.lend b x).node? y = some n' ∧ n.Refers n' := by
    intro y n hn
    rw [node?_lend, hn]
    split
    · exact ⟨_, rfl, rfl, rfl, rfl⟩
    · exact ⟨n, rfl, .refl n⟩
  have hback : Rescans (fun _ ↦ False) d' (d'.lend b x) := by
    intro y n' hn'
    rw [node?_lend] at hn'
    split at hn'
    · obtain ⟨n, hn, rfl⟩ := Option.map_eq_some_iff.mp hn'
      exact .inr (.inr ⟨n, hn, rfl, rfl, rfl⟩)
    · exact .inr (.inr ⟨n', hn', .refl n'⟩)
  obtain ⟨m, hm, hp⟩ := h.top
  obtain ⟨m', hm', hr⟩ := hforth o m hm
  refine ⟨?_, m', hm', hr.parent.trans hp⟩
  refine (h.rescans.trans (hback.mono fun _ _ hf ↦ hf.elim)).mono fun y _ hb ↦ ?_
  exact hb.mono fun z n hn ↦ by
    obtain ⟨n', hn', hr⟩ := hforth z n hn
    exact ⟨n', hn', hr.parent⟩

theorem Linked.scannedAbove (h : Linked d) (other : Document) :
    ScannedAbove (d.overlayId other) d (d.merge other).2 := by
  refine (merge_induction (C := Copied (d.overlayId other) d)
    (M := ScannedAbove (d.overlayId other) d) h
    other ⟨?_, fun x hx hlive ↦ ?_⟩ (fun d' b n s hl _ hc hle hs ↦ hc.enroll hl hle hs rfl)
    (fun d' hl hf hc ↦ ?_) (fun d' b x n p _ hc _ _ _ _ _ _ _ ↦ hc.lend b x)
    fun d' b name kind hl hc _ ↦ hc.enroll hl name kind).2
  · refine (Rescans.supersede d other.id).trans fun x n' hn' ↦ ?_
    rcases node?_of_push hn' with ⟨rfl, -⟩ | hn'
    · exact .inl (Nat.le_refl _)
    · exact .inr (.inr ⟨n', hn', .refl n'⟩)
  · obtain ⟨n, hn⟩ := isLive_iff.mp hlive
    rcases node?_of_push hn with ⟨rfl, -⟩ | hn
    · exact .refl
    · exact absurd (lt_nextId hn) (Nat.not_lt.mpr hx)
  · have ha := Alike.recordEdges d' (d.overlayId other)
    have hr : Rescans (Below (d'.recordEdges (d.overlayId other)) (d.overlayId other)) d
        (d'.recordEdges (d.overlayId other)) :=
      (hc.rescans.recordEdges (d.overlayId other)).mono fun x hlive hx ↦
        ha.below.mpr (hc.below x hx.1 (ha.isLive x ▸ hlive))
    obtain ⟨n, hn, hp⟩ := (hf.alike ha).top
    refine ⟨(hr.trans (.of_nodes rfl)).mono fun x _ hb ↦ ?_, n, hn, hp⟩
    have hsame : ∀ y m, (d'.recordEdges (d.overlayId other)).node? y = some m →
        ∃ m₀, ((d'.recordEdges (d.overlayId other)).announce other.id
          (d.overlayId other)).node? y = some m₀ ∧ m₀.parent = m.parent :=
      fun _ m hm ↦ ⟨m, hm, rfl⟩
    exact hb.mono hsame

/-- A merge scans its overlay, and nobody is shown any of it as the document's own. -/
theorem Scanned.merge (h : Scanned d) (hl : Linked d) (other : Document)
    (ho : Owned full ov U (d.merge other).2) : Scanned (d.merge other).2 := by
  have hfold := hl.scannedAbove other
  refine h.step hfold.rescans (fun x hx hb ↦ ?_) fun x hx hlt ↦
    hx.back hl (fun b s' e' hs' he' hv hlt ↦ ?_) hlt
  · obtain ⟨n, hn, hp⟩ := hfold.top
    have hne := overlayId_ne_root hl other
    refine hne ((hx.above ho hb).below_root ho |>.eq_of_top fun m hm ↦ ?_)
    rw [hn] at hm
    cases hm
    exact hp
  · rcases (merged hl other).entry b s' e' hs' he' with ⟨s, hs, he⟩ | ⟨x, hx, hnew⟩
    · exact ⟨s, e', hs, he, rfl, hv⟩
    · rcases hnew with ⟨rfl, -⟩ | ⟨rfl, -⟩ <;> exact absurd hlt (Nat.not_lt.mpr hx)

end Merge

/-- The edges in sight stay in step, whatever is asked of the main tree. -/
theorem Reached.scanned (hd : Reached InMainTree d) : Scanned d := by
  have howned : ∀ {d : Document}, Reached InMainTree d → Owned False d.overlays (fun _ ↦ False) d :=
    fun hd ↦ hd.owned fun _ _ ha ↦ ⟨ha, False.elim⟩
  induction hd with
  | new id config =>
    intro x n _ hn
    rw [(node?_of_new hn).2]
    rfl
  | edit edit hd hmain ih => exact ih.edit (howned hd) hmain False.elim
  | reset hd _ => exact .reset hd.linked
  | apply w s hd ih => exact ih.apply hd.linked w s
  | merge other hd ih => exact ih.merge hd.linked other (howned (.merge other hd))
  | @takeDiagnostics d hd ih =>
    have hsame : ∀ b, d.takeDiagnostics.2.store? b = d.store? b := fun _ ↦ rfl
    refine ih.step (C := fun _ ↦ False) (.of_nodes rfl) (fun _ _ hf ↦ hf) fun x hx hlt ↦
      hx.back hd.linked (fun b s e hs he hv _ ↦ ?_) hlt
    exact ⟨s, e, (hsame b).symm.trans hs, he, rfl, hv⟩

end Document

end BuildScript
