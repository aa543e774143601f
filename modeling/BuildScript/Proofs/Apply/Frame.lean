import BuildScript.Proofs.Owned.Apply

namespace BuildScript

theorem Store.mem_modifyEntry_of_ne {s : Store} {e : Entry} {id : NodeId} {f : Entry → Entry}
    (hf : ∀ e, (f e).node = e.node) (he : e.node ≠ id) :
    e ∈ (s.modifyEntry id f).entries ↔ e ∈ s.entries := by
  obtain ⟨l, baseline⟩ := s
  simp only [modifyEntry]
  fun_induction modifyFirst id f l with
  | case1 => rfl
  | case2 e₀ rest hn =>
    have h₀ : e ≠ e₀ := by
      intro h
      exact he (h ▸ hn)
    have h₁ : e ≠ f e₀ := by
      intro h
      exact he ((congrArg Entry.node h).trans ((hf e₀).trans hn))
    simp [h₀, h₁]
  | case3 e₀ rest hn ih => simp only [List.mem_cons, ih]

theorem Store.mem_modifyEntry_self {s : Store} (hs : s.nodes.Nodup) {e : Entry} {id : NodeId}
    {f : Entry → Entry} (h : e ∈ (s.modifyEntry id f).entries) (he : e.node = id) :
    ∃ e₀ ∈ s.entries, e₀.node = id ∧ e = f e₀ := by
  obtain ⟨l, baseline⟩ := s
  simp only [modifyEntry, nodes] at h hs ⊢
  fun_induction modifyFirst id f l with
  | case1 => simp at h
  | case2 e₀ rest hn =>
    rcases List.mem_cons.mp h with rfl | h
    · exact ⟨e₀, List.mem_cons_self, hn, rfl⟩
    · have hmem : e₀.node ∈ rest.map (·.node) := hn ▸ he ▸ List.mem_map_of_mem h
      exact absurd hmem (List.nodup_cons.mp hs).1
  | case3 e₀ rest hn ih =>
    rcases List.mem_cons.mp h with rfl | h
    · exact absurd he hn
    · obtain ⟨e₁, he₁, hrest⟩ := ih (List.nodup_cons.mp hs).2 h
      exact ⟨e₁, List.mem_cons_of_mem _ he₁, hrest⟩

theorem Store.filter_nodes_modifyEntry {s : Store} {id : NodeId} {f : Entry → Entry}
    {p : Entry → Bool} (hf : ∀ e, (f e).node = e.node)
    (hp : ∀ e ∈ s.entries, e.node = id → p (f e) = p e) :
    ((s.modifyEntry id f).entries.filter p).map (·.node) =
      (s.entries.filter p).map (·.node) := by
  obtain ⟨l, baseline⟩ := s
  simp only [modifyEntry] at hp ⊢
  fun_induction modifyFirst id f l with
  | case1 => rfl
  | case2 e rest hn =>
    have he := hp e List.mem_cons_self hn
    simp only [List.filter_cons, he]
    split <;> simp [hf]
  | case3 e rest hn ih =>
    have hrest := ih fun e' he' ↦ hp e' (List.mem_cons_of_mem _ he')
    simp only [List.filter_cons]
    split <;> simp [hrest]

namespace Document

variable {full : Prop} {ov : List NodeId} {d d' d'' : Document} {a b c id x y : NodeId}
  {l l' : List NodeId} {n : Node} {e : Entry} {s : Store} {state : EntryState}

theorem mem_inState : id ∈ d.inState b state ↔
    ∃ s, d.store? b = some s ∧ ∃ e ∈ s.entries, e.state = state ∧ e.node = id := by
  unfold Document.inState
  cases hs : d.store? b with
  | none => simp
  | some s => simp [Store.mem_inState]

theorem Linked.state_of_mem_inState (h : Linked d) (hid : id ∈ d.inState b state)
    (hs : d.store? b = some s) (he : e ∈ s.entries) (hn : e.node = id) : e.state = state := by
  obtain ⟨s', hs', e', he', hst, hn'⟩ := mem_inState.mp hid
  rw [hs] at hs'
  cases hs'
  rw [Store.eq_of_node_eq (h.store b s hs).nodup he he' (hn.trans hn'.symm)]
  exact hst

theorem mem_placeable : id ∈ d.placeable b ↔
    ∃ s, d.store? b = some s ∧ ∃ e ∈ s.entries, e.isPlaceable ∧ e.node = id := by
  unfold Document.placeable
  cases hs : d.store? b with
  | none => simp
  | some s => simp [Store.mem_placeable]

theorem mem_placeable_of_mem_inState (hid : id ∈ d.inState b state) (hstate : state.isPlaceable) :
    id ∈ d.placeable b := by
  obtain ⟨s, hs, e, he, rfl, hn⟩ := mem_inState.mp hid
  exact mem_placeable.mpr ⟨s, hs, e, he, hstate, hn⟩

/-- A block of the main tree, in a document in which it is clear who owns what. -/
structure Writable (ov : List NodeId) (d : Document) (b : NodeId) : Prop where
  owned : Owned False ov (fun _ ↦ False) d
  main : Below d root b

/-- Changes to the nodes of `l`, which are children of `b`: to all that lies below them and to their
entries in `b`. -/
structure Changed (b : NodeId) (l : List NodeId) (d d' : Document) : Prop
    extends Inherits d d' where
  nodes : ∀ y, (∀ id ∈ l, ¬ Below d id y) → d'.node? y = d.node? y
  stores : ∀ y, (∀ id ∈ l, ¬ Below d id y) → y ≠ b → d'.store? y = d.store? y
  leaf : d.store? b = none → d'.store? b = none
  own : ∀ s, d.store? b = some s → ∃ s', d'.store? b = some s' ∧ s'.nodes.Sublist s.nodes ∧
    ∀ e, e.node ∉ l → (e ∈ s'.entries ↔ e ∈ s.entries)

structure Confined (b : NodeId) (d d' : Document) : Prop extends Inherits d d' where
  nodes : ∀ y, (Below d b y → y = b) → d'.node? y = d.node? y
  stores : ∀ y, ¬ Below d b y → d'.store? y = d.store? y

namespace Changed

theorem refl (b : NodeId) (l : List NodeId) (d : Document) : Changed b l d d :=
  ⟨.refl d, fun _ _ ↦ rfl, fun _ _ _ ↦ rfl, fun hs ↦ hs,
    fun s hs ↦ ⟨s, hs, .refl _, fun _ _ ↦ .rfl⟩⟩

theorem trans (h : Changed b l d d') (h' : Changed b l' d' d'') : Changed b (l ++ l') d d'' where
  toInherits := h.toInherits.trans h'.toInherits
  nodes y hy := by
    rw [h'.nodes y fun id hid hb ↦ hy id (List.mem_append_right _ hid) (h.below hb)]
    exact h.nodes y fun id hid ↦ hy id (List.mem_append_left _ hid)
  stores y hy hyb := by
    rw [h'.stores y (fun id hid hb ↦ hy id (List.mem_append_right _ hid) (h.below hb)) hyb]
    exact h.stores y (fun id hid ↦ hy id (List.mem_append_left _ hid)) hyb
  leaf hs := h'.leaf (h.leaf hs)
  own s hs := by
    obtain ⟨s', hs', hsub, hiff⟩ := h.own s hs
    obtain ⟨s'', hs'', hsub', hiff'⟩ := h'.own s' hs'
    refine ⟨s'', hs'', hsub'.trans hsub, fun e he ↦ ?_⟩
    rw [List.mem_append, not_or] at he
    exact (hiff' e he.2).trans (hiff e he.1)

theorem mono (h : Changed b l d d') (hl : ∀ x ∈ l, x ∈ l') : Changed b l' d d' where
  toInherits := h.toInherits
  nodes y hy := h.nodes y fun id hid ↦ hy id (hl id hid)
  stores y hy := h.stores y fun id hid ↦ hy id (hl id hid)
  leaf := h.leaf
  own s hs := by
    obtain ⟨s', hs', hsub, hiff⟩ := h.own s hs
    exact ⟨s', hs', hsub, fun e he ↦ hiff e fun hmem ↦ he (hl _ hmem)⟩

theorem again (h : Changed b l d d') (h' : Changed b l d' d'') : Changed b l d d'' :=
  (h.trans h').mono fun _ hx ↦ (List.mem_append.mp hx).elim (fun hx ↦ hx) fun hx ↦ hx

theorem modifyNode (b : NodeId) (d : Document) (id : NodeId) {f : Node → Node}
    (hf : ∀ n, (f n).parent = n.parent) : Changed b [id] d (d.modifyNode id f) where
  toInherits := .modifyNode d id hf
  nodes y hy := by
    have hne : id ≠ y := by
      rintro rfl
      exact hy id List.mem_cons_self .refl
    rw [node?_modifyNode, if_neg hne]
  stores _ _ _ := rfl
  leaf hs := hs
  own s hs := ⟨s, hs, .refl _, fun _ _ ↦ .rfl⟩

theorem modifyEntry (d : Document) (b id : NodeId) {f : Entry → Entry}
    (hf : ∀ e, (f e).node = e.node) : Changed b [id] d (d.modifyEntry b id f) where
  toInherits := .modifyStore d b _
  nodes _ _ := rfl
  stores y _ hyb := by rw [Document.modifyEntry, store?_modifyStore, if_neg (Ne.symm hyb)]
  leaf hs := by
    rw [Document.modifyEntry, store?_modifyStore, if_pos rfl, hs]
    rfl
  own s hs := by
    refine ⟨s.modifyEntry id f, ?_, ?_, fun e he ↦ ?_⟩
    · rw [Document.modifyEntry, store?_modifyStore, if_pos rfl, hs]
      rfl
    · rw [Store.nodes_modifyEntry hf]
    · exact Store.mem_modifyEntry_of_ne hf (by simpa using he)

theorem below_of_below (h : Changed b l d d') (hb : Below d a x) (hx : ∀ id ∈ l, ¬ Below d id x) :
    Below d' a x := by
  induction hb with
  | refl => exact .refl
  | step hb hn hp ih =>
    have hn' := (h.nodes _ hx).trans hn
    exact .step (ih fun id hid hp' ↦ hx id hid (.step hp' hn hp)) hn' hp

theorem not_below (ho : d.Older) (hl : ∀ id ∈ l, d.isOwnedBy id b) : ∀ id ∈ l, ¬ Below d id b := by
  intro id hid
  obtain ⟨n, hn, hp⟩ := isOwnedBy_iff.mp (hl id hid)
  exact Below.not_parent ho hn hp

theorem writable (h : Changed b l d d') (hd : Writable ov d b)
    (hl : ∀ id ∈ l, d.isOwnedBy id b) (ho : Owned False ov (fun _ ↦ False) d') : Writable ov d' b :=
  ⟨ho, h.below_of_below hd.main (not_below hd.owned.linked.older hl)⟩

theorem confined (h : Changed b l d d') (ho : d.Older) (hl : ∀ id ∈ l, d.isOwnedBy id b) :
    Confined b d d' := by
  have hbelow : ∀ id ∈ l, ∀ y, Below d id y → Below d b y ∧ y ≠ b := by
    intro id hid y hy
    obtain ⟨n, hn, hp⟩ := isOwnedBy_iff.mp (hl id hid)
    refine ⟨(Below.child hn hp).trans hy, ?_⟩
    rintro rfl
    exact Below.not_parent ho hn hp hy
  refine ⟨h.toInherits, fun y hy ↦ h.nodes y fun id hid hb ↦ ?_, fun y hy ↦ h.stores y ?_ ?_⟩
  · exact (hbelow id hid y hb).2 (hy (hbelow id hid y hb).1)
  · exact fun id hid hb ↦ hy (hbelow id hid y hb).1
  · rintro rfl
    exact hy .refl

theorem exists_entry_iff (h : Changed b l d d') (hx : x ∉ l) (p : Entry → Prop) :
    (∃ s, d'.store? b = some s ∧ ∃ e ∈ s.entries, p e ∧ e.node = x) ↔
      ∃ s, d.store? b = some s ∧ ∃ e ∈ s.entries, p e ∧ e.node = x := by
  cases hs : d.store? b with
  | none => simp [h.leaf hs]
  | some s =>
    obtain ⟨s', hs', -, hiff⟩ := h.own s hs
    simp only [hs', Option.some.injEq, exists_eq_left']
    constructor
    · rintro ⟨e, he, hp, rfl⟩
      exact ⟨e, (hiff e hx).mp he, hp, rfl⟩
    · rintro ⟨e, he, hp, rfl⟩
      exact ⟨e, (hiff e hx).mpr he, hp, rfl⟩

theorem mem_inState (h : Changed b l d d') (hx : x ∉ l) :
    x ∈ d'.inState b state ↔ x ∈ d.inState b state := by
  rw [Document.mem_inState, Document.mem_inState]
  exact h.exists_entry_iff hx (·.state = state)

theorem mem_placeable (h : Changed b l d d') (hx : x ∉ l) :
    x ∈ d'.placeable b ↔ x ∈ d.placeable b := by
  rw [Document.mem_placeable, Document.mem_placeable]
  exact h.exists_entry_iff hx (·.isPlaceable)

end Changed

namespace Confined

theorem refl (b : NodeId) (d : Document) : Confined b d d :=
  ⟨.refl d, fun _ _ ↦ rfl, fun _ _ ↦ rfl⟩

theorem trans (h : Confined b d d') (h' : Confined b d' d'') : Confined b d d'' where
  toInherits := h.toInherits.trans h'.toInherits
  nodes y hy := (h'.nodes y fun hb ↦ hy (h.below hb)).trans (h.nodes y hy)
  stores y hy := (h'.stores y fun hb ↦ hy (h.below hb)).trans (h.stores y hy)

theorem modifyStore (d : Document) (b : NodeId) (f : Store → Store) :
    Confined b d (d.modifyStore b f) where
  toInherits := .modifyStore d b f
  nodes _ _ := rfl
  stores y hy := by
    have hne : b ≠ y := by
      rintro rfl
      exact hy .refl
    rw [store?_modifyStore, if_neg hne]

theorem store?_parent (h : Confined id d d') (ho : d.Older) (hid : d.isOwnedBy id b) :
    d'.store? b = d.store? b := by
  obtain ⟨n, hn, hp⟩ := isOwnedBy_iff.mp hid
  exact h.stores b (Below.not_parent ho hn hp)

theorem changed (h : Confined id d d') (ho : d.Older) (hid : d.isOwnedBy id b) :
    Changed b [id] d d' where
  toInherits := h.toInherits
  nodes y hy := h.nodes y fun hb ↦ absurd hb (hy id List.mem_cons_self)
  stores y hy _ := h.stores y (hy id List.mem_cons_self)
  leaf hs := (h.store?_parent ho hid).trans hs
  own s hs := ⟨s, (h.store?_parent ho hid).trans hs, .refl _, fun _ _ ↦ .rfl⟩

end Confined

namespace Writable

theorem child (h : Writable ov d b) (hid : d.isOwnedBy id b) : Writable ov d id := by
  obtain ⟨n, hn, hp⟩ := isOwnedBy_iff.mp hid
  exact ⟨h.owned, .step h.main hn hp⟩

theorem isOwnedBy (h : Writable ov d b) (hs : d.store? b = some s) (he : e ∈ s.entries)
    (ha : e.state ≠ .applied) : d.isOwnedBy e.node b := by
  obtain ⟨n, hn, hiff⟩ := (h.owned.entry b s e hs he).owner
  exact isOwnedBy_iff.mpr ⟨n, hn, hiff.mpr ha⟩

theorem isOwnedBy_of_inState (h : Writable ov d b) (hst : state ≠ .applied)
    (hid : id ∈ d.inState b state) : d.isOwnedBy id b := by
  obtain ⟨s, hs, e, he, rfl, rfl⟩ := mem_inState.mp hid
  exact h.isOwnedBy hs he hst

theorem isOwnedBy_of_placeable (h : Writable ov d b) (hid : id ∈ d.placeable b) :
    d.isOwnedBy id b := by
  obtain ⟨s, hs, e, he, hp, rfl⟩ := mem_placeable.mp hid
  refine h.isOwnedBy hs he fun ha ↦ ?_
  simp [Entry.isPlaceable, ha, EntryState.isPlaceable] at hp

/-- Nothing in the main tree is borrowed, so a dropped child takes only its own entry with it. -/
theorem store?_drop (h : Writable ov d b) (hn : d.node? id = some n) (hp : n.parent = some b)
    (hy : y ∉ (d.purge b id).ownedSubtree id) :
    ((d.purge b id).release id).store? y = (d.purge b id).store? y := by
  have hpurged := h.owned.purged b id
  have hdet := Detached.purge h.owned.linked hn hp
  rw [Document.release, hpurged.store?_evicted hdet hy]
  cases hs : (d.purge b id).store? y with
  | none => rfl
  | some s =>
    refine congrArg some (Store.without_of_forall_not_mem fun e he hel ↦ ?_)
    obtain ⟨m, hm, -⟩ := (hpurged.entry y s e hs he).owner
    have hmain : Below (d.purge b id) root e.node :=
      (below_modifyStore.mpr (.step h.main hn hp)).trans (ownedSubtree_below hel)
    have hnone := hpurged.holders_eq_nil hm (hpurged.not_below_of_main hmain)
    have hmem := Store.mem_nodes_of_mem he
    rcases ((hpurged.linked.store y s hs).links _ hmem).2 m hm with hpar | hhold
    · exact hdet.cut _ hel m y s hm hpar hy hs hmem
    · simp [hnone] at hhold

theorem store?_drop_parent (h : Writable ov d b) (hn : d.node? id = some n)
    (hp : n.parent = some b) :
    ((d.purge b id).release id).store? b = (d.store? b).map (·.purge id) := by
  have hb : b ∉ (d.purge b id).ownedSubtree id := fun hmem ↦
    Below.not_parent h.owned.linked.older hn hp (below_modifyStore.mp (ownedSubtree_below hmem))
  rw [h.store?_drop hn hp hb, Document.purge, store?_modifyStore, if_pos rfl]

theorem drop (h : Writable ov d b) (hn : d.node? id = some n) (hp : n.parent = some b) :
    Changed b [id] d ((d.purge b id).release id) := by
  have hbelow : ∀ y, ¬ Below d id y → y ∉ (d.purge b id).ownedSubtree id := fun y hy hmem ↦
    hy (below_modifyStore.mp (ownedSubtree_below hmem))
  refine ⟨.drop d b id, fun y hy ↦ ?_, fun y hy hyb ↦ ?_, fun hs ↦ ?_,
    fun s hs ↦ ⟨s.purge id, ?_, ?_, ?_⟩⟩
  · rw [Document.release, node?_foldl_evict, if_neg (hbelow y (hy id List.mem_cons_self))]
    rfl
  · rw [h.store?_drop hn hp (hbelow y (hy id List.mem_cons_self)), Document.purge,
      store?_modifyStore, if_neg (Ne.symm hyb)]
  · rw [h.store?_drop_parent hn hp, hs]
    rfl
  · rw [h.store?_drop_parent hn hp, hs]
    rfl
  · exact s.nodes_purge_sublist id
  · intro e he
    rw [Store.purge_entries (h.owned.linked.store b s hs).nodup]
    simpa using fun _ ↦ he

theorem inState_nodup (h : Writable ov d b) (state : EntryState) : (d.inState b state).Nodup := by
  unfold Document.inState
  split
  · next s hs => exact Store.inState_nodup (h.owned.linked.store b s hs).nodup state
  · exact List.nodup_nil

theorem placeable_nodup (h : Writable ov d b) : (d.placeable b).Nodup := by
  unfold Document.placeable
  split
  · next s hs => exact Store.placeable_nodup (h.owned.linked.store b s hs).nodup
  · exact List.nodup_nil

end Writable

end Document

namespace Run

variable {σ : Type} {w : Writer σ} {ov : List NodeId} {b id : NodeId} {r : Run σ}

open Document

theorem delete_changed (h : Writable ov r.document b) (hid : r.document.isOwnedBy id b) :
    Changed b [id] r.document (r.delete w b id).document := by
  have hstep := Run.deletion w b id r
  generalize r.delete w b id = r' at hstep
  cases hstep with
  | foreign hforeign =>
    obtain ⟨n, hn, hp⟩ := isOwnedBy_iff.mp hid
    exact absurd hp (hforeign n hn)
  | unwritten hn hp => exact h.drop hn hp
  | refused => exact .refl _ _ _
  | deleted hn hp => exact h.drop hn hp

theorem create_changed (h : Writable ov r.document b) (hid : r.document.isOwnedBy id b) :
    Changed b [id] r.document (r.create w b id).document := by
  obtain ⟨n, hn, hp⟩ := isOwnedBy_iff.mp hid
  have hstep := Run.creation w b id r
  generalize r.create w b id = r' at hstep
  cases hstep with
  | dead => exact .refl _ _ _
  | refused => exact h.drop hn hp
  | created range =>
    have hnode : Changed b [id] r.document (r.document.modifyNode id (·.createdAt range)) :=
      .modifyNode b _ id fun n ↦ congrArg (·.1.1) (place_createdAt range n)
    exact hnode.again (.modifyEntry _ b id fun _ ↦ rfl)

theorem relocate_changed (b id : NodeId) (r : Run σ) :
    Changed b [id] r.document (r.relocate w b id).document := by
  have hstep := Run.relocating w b id r
  generalize r.relocate w b id = r' at hstep
  cases hstep with
  | dead => exact .refl _ _ _
  | refused => exact .refl _ _ _
  | relocated => exact .modifyEntry _ b id fun _ ↦ rfl

theorem flush_changed {inner : NodeId → Run σ → Run σ} (h : Writable ov r.document b)
    (hid : r.document.isOwnedBy id b)
    (hinner : ∀ r' : Run σ, Writable ov r'.document id →
      Confined id r'.document (inner id r').document) :
    Changed b [id] r.document (r.flush w inner b id).document := by
  have hin := hinner { r with clean := true } (h.child hid)
  have hch := hin.changed h.owned.linked.older hid
  have hstep := Run.flushing w inner b id r
  generalize r.flush w inner b id = r' at hstep
  cases hstep with
  | idle => exact .refl _ _ _
  | inside => exact hch
  | settled => exact hch.again (.modifyNode b _ id fun _ ↦ rfl)
  | refused => exact .refl _ _ _
  | flushed => exact .modifyNode b _ id fun n ↦ congrArg (·.1.1) (place_commit n)

structure Advances (ov : List NodeId) (b : NodeId) (A : Document → NodeId → Prop)
    (f : Run σ → NodeId → Run σ) : Prop where
  child : ∀ d id, Writable ov d b → A d id → d.isOwnedBy id b
  stable : ∀ d d' id i, A d id → Changed b [id] d d' → i ≠ id → A d i → A d' i
  owned : ∀ r id, Writable ov r.document b → A r.document id →
    Owned False ov (fun _ ↦ False) (f r id).document
  changed : ∀ r id, Writable ov r.document b → A r.document id →
    Changed b [id] r.document (f r id).document

namespace Advances

variable {A : Document → NodeId → Prop} {f : Run σ → NodeId → Run σ} {l : List NodeId}

theorem writable (h : Advances ov b A f) (hw : Writable ov r.document b) (ha : A r.document id) :
    Writable ov (f r id).document b :=
  (h.changed r id hw ha).writable hw (by simpa using h.child _ id hw ha) (h.owned r id hw ha)

theorem foldl (h : Advances ov b A f) {Q : Run σ → List NodeId → Run σ → Prop}
    (hnil : ∀ r, Q r [] r)
    (hcons : ∀ r id l r', Writable ov r.document b → A r.document id → id ∉ l →
      Writable ov (f r id).document b → (∀ i ∈ l, A (f r id).document i) →
      Changed b l (f r id).document r'.document → Q (f r id) l r' → Q r (id :: l) r')
    (hl : l.Nodup) (hw : Writable ov r.document b) (ha : ∀ id ∈ l, A r.document id) :
    Writable ov (l.foldl f r).document b ∧ Changed b l r.document (l.foldl f r).document ∧
      Q r l (l.foldl f r) := by
  induction l generalizing r with
  | nil => exact ⟨hw, .refl _ _ _, hnil r⟩
  | cons id l ih =>
    obtain ⟨hnot, hrest⟩ := List.nodup_cons.mp hl
    have hid := ha id List.mem_cons_self
    have hch := h.changed r id hw hid
    have hw' := h.writable hw hid
    have ha' : ∀ i ∈ l, A (f r id).document i := by
      intro i hi
      refine h.stable _ _ id i hid hch ?_ (ha i (List.mem_cons_of_mem _ hi))
      rintro rfl
      exact hnot hi
    obtain ⟨hw'', hch', hq⟩ := ih hrest hw' ha'
    exact ⟨hw'', hch.trans hch', hcons r id l _ hw hid hnot hw' ha' hch' hq⟩

theorem strengthen (h : Advances ov b A f) {B : Document → NodeId → Prop}
    (hb : ∀ d d' id i, A d id → B d id → Changed b [id] d d' → i ≠ id → B d i → B d' i) :
    Advances ov b (fun d id ↦ A d id ∧ B d id) f where
  child d id hw ha := h.child d id hw ha.1
  stable d d' id i ha hc hne hi :=
    ⟨h.stable d d' id i ha.1 hc hne hi.1, hb d d' id i ha.1 ha.2 hc hne hi.2⟩
  owned r id hw ha := h.owned r id hw ha.1
  changed r id hw ha := h.changed r id hw ha.1

theorem confined (h : Advances ov b A f) (hl : l.Nodup) (hw : Writable ov r.document b)
    (ha : ∀ id ∈ l, A r.document id) :
    Writable ov (l.foldl f r).document b ∧ Confined b r.document (l.foldl f r).document := by
  obtain ⟨hw', hch, -⟩ := h.foldl (Q := fun _ _ _ ↦ True) (fun _ ↦ trivial)
    (fun _ _ _ _ _ _ _ _ _ _ _ ↦ trivial) hl hw ha
  exact ⟨hw', hch.confined hw.owned.linked.older fun id hid ↦ h.child _ id hw (ha id hid)⟩

end Advances

theorem advances_delete (w : Writer σ) (ov : List NodeId) (b : NodeId) :
    Advances ov b (fun d id ↦ id ∈ d.inState b .toBeRemoved) (delete w b) where
  child _ _ hw ha := hw.isOwnedBy_of_inState (by simp) ha
  stable _ _ _ _ _ hc hne ha := (hc.mem_inState (by simpa using hne)).mpr ha
  owned _ _ hw _ := (hw.owned.delete b _).1
  changed _ _ hw ha := delete_changed hw (hw.isOwnedBy_of_inState (by simp) ha)

theorem advances_create (w : Writer σ) (ov : List NodeId) (b : NodeId) :
    Advances ov b (fun d id ↦ id ∈ d.inState b .toBeAdded) (create w b) where
  child _ _ hw ha := hw.isOwnedBy_of_inState (by simp) ha
  stable _ _ _ _ _ hc hne ha := (hc.mem_inState (by simpa using hne)).mpr ha
  owned _ _ hw ha :=
    (hw.owned.create (hw.owned.belongsTo_of_mem_inState .toBeAdded (by simp) ha)).1
  changed _ _ hw ha := create_changed hw (hw.isOwnedBy_of_inState (by simp) ha)

theorem advances_relocate (w : Writer σ) (ov : List NodeId) (b : NodeId) :
    Advances ov b (fun d id ↦ id ∈ d.inState b .moved) (relocate w b) where
  child _ _ hw ha := hw.isOwnedBy_of_inState (by simp) ha
  stable _ _ _ _ _ hc hne ha := (hc.mem_inState (by simpa using hne)).mpr ha
  owned _ _ hw ha :=
    (hw.owned.relocate (hw.owned.belongsTo_of_mem_inState .moved (by simp) ha)).1
  changed r id _ _ := relocate_changed b id r

theorem advances_flush (w : Writer σ) {ov : List NodeId} {fuel : Nat}
    (hin : ∀ id (r : Run σ), Writable ov r.document id →
      Confined id r.document (r.block w fuel id).document) (b : NodeId) :
    Advances ov b (fun d id ↦ id ∈ d.placeable b) (flush w (block w fuel) b) where
  child _ _ hw ha := hw.isOwnedBy_of_placeable ha
  stable _ _ _ _ _ hc hne ha := (hc.mem_placeable (by simpa using hne)).mpr ha
  owned _ _ hw _ := (hw.owned.flush b _ fun i _ hr ↦ hr.block w fuel i).1
  changed _ id hw ha := flush_changed hw (hw.isOwnedBy_of_placeable ha) (hin id)

/-- Writing a block changes nothing around it. -/
theorem block_confined (w : Writer σ) (fuel : Nat) (b : NodeId) (r : Run σ)
    (h : Writable ov r.document b) : Confined b r.document (r.block w fuel b).document := by
  induction fuel generalizing b r with
  | zero => exact .refl _ _
  | succ fuel ih =>
    obtain ⟨h₁, c₁⟩ := (advances_delete w ov b).confined (h.inState_nodup _) h fun _ hid ↦ hid
    obtain ⟨h₂, c₂⟩ := (advances_create w ov b).confined (h₁.inState_nodup _) h₁ fun _ hid ↦ hid
    obtain ⟨h₃, c₃⟩ := (advances_flush w ih b).confined h₂.placeable_nodup h₂ fun _ hid ↦ hid
    obtain ⟨-, c₄⟩ := (advances_relocate w ov b).confined (h₃.inState_nodup _) h₃ fun _ hid ↦ hid
    exact (((c₁.trans c₂).trans c₃).trans c₄).trans (.modifyStore _ b _)

end Run

end BuildScript
