import BuildScript.Proofs.Owned.Release

namespace BuildScript.Document

variable {full : Prop} {ov : List NodeId} {U : NodeId → Prop} {d d' d'' : Document}
  {b i o p x y id : NodeId} {n : Node} {e : Entry} {s : Store} {σ : Type} {w : Writer σ}
  {r : Run σ}

/-- Nodes are only lost, none gets another parent, and the overlays stay. -/
structure Inherits (d d' : Document) : Prop where
  node : ∀ x n', d'.node? x = some n' → ∃ n, d.node? x = some n ∧ n'.parent = n.parent
  overlays : d'.overlays = d.overlays
  nextId : d'.nextId = d.nextId

theorem Inherits.refl (d : Document) : Inherits d d := ⟨fun _ n' hn' ↦ ⟨n', hn', rfl⟩, rfl, rfl⟩

theorem Inherits.trans (h : Inherits d d') (h' : Inherits d' d'') : Inherits d d'' where
  node x n'' hn'' := by
    obtain ⟨n', hn', hp'⟩ := h'.node x n'' hn''
    obtain ⟨n, hn, hp⟩ := h.node x n' hn'
    exact ⟨n, hn, hp'.trans hp⟩
  overlays := h'.overlays.trans h.overlays
  nextId := h'.nextId.trans h.nextId

theorem Inherits.modifyNode (d : Document) (i : NodeId) {f : Node → Node}
    (hf : ∀ n, (f n).parent = n.parent) : Inherits d (d.modifyNode i f) where
  node x n' hn' := by
    rcases node?_of_modifyNode hn' with ⟨-, n, hn, rfl⟩ | ⟨-, hn'⟩
    · exact ⟨n, hn, hf n⟩
    · exact ⟨n', hn', rfl⟩
  overlays := rfl
  nextId := nextId_modifyNode d i f

theorem Inherits.modifyStore (d : Document) (b : NodeId) (f : Store → Store) :
    Inherits d (d.modifyStore b f) := ⟨fun _ n' hn' ↦ ⟨n', hn', rfl⟩, rfl, rfl⟩

theorem Inherits.release (d : Document) (id : NodeId) : Inherits d (d.release id) where
  node _ n' hn' := ⟨n', node?_of_release hn', rfl⟩
  overlays := (foldl_evict_fields _ _).2.2.1
  nextId := (foldl_evict_fields _ _).1

theorem Inherits.drop (d : Document) (b id : NodeId) : Inherits d ((d.purge b id).release id) :=
  (Inherits.modifyStore d b _).trans (.release _ id)

theorem Inherits.below (h : Inherits d d') (hb : Below d' o x) : Below d o x :=
  hb.mono fun x n' hn' ↦ by
    obtain ⟨n, hn, hp⟩ := h.node x n' hn'
    exact ⟨n, hn, hp.symm⟩

theorem isOwnedBy_of_parent (h : ∀ n', d'.node? x = some n' → ∃ n, d.node? x = some n ∧
    n'.parent = n.parent) (ho : d'.isOwnedBy x b) : d.isOwnedBy x b := by
  obtain ⟨n', hn', hp'⟩ := isOwnedBy_iff.mp ho
  obtain ⟨n, hn, hp⟩ := h n' hn'
  exact isOwnedBy_iff.mpr ⟨n, hn, hp ▸ hp'⟩

theorem Inherits.isOwnedBy (h : Inherits d d') (ho : d'.isOwnedBy x b) : d.isOwnedBy x b :=
  isOwnedBy_of_parent (h.node x) ho

theorem Inherits.isLive (h : Inherits d d') (hx : d'.isLive x) : d.isLive x := by
  obtain ⟨n', hn'⟩ := isLive_iff.mp hx
  obtain ⟨n, hn, -⟩ := h.node x n' hn'
  exact isLive_iff.mpr ⟨n, hn⟩

def BelongsTo (d : Document) (b id : NodeId) : Prop :=
  ∀ n, d.node? id = some n → n.parent = some b

theorem BelongsTo.inherits (h : d.BelongsTo b id) (hi : Inherits d d') : d'.BelongsTo b id := by
  intro n' hn'
  obtain ⟨n, hn, hp⟩ := hi.node id n' hn'
  exact hp.trans (h n hn)

theorem place_commit (n : Node) : place n.commit.markWritten = place n := by
  obtain ⟨hp, hh, hc, -⟩ := n.commit_fields
  exact Prod.ext (Prod.ext hp hc) hh

theorem place_createdAt (range : SourceRange) (n : Node) : place (n.createdAt range) = place n := by
  simp only [Node.createdAt]
  split
  · rfl
  · exact place_commit { n with source := some range }

theorem Inherits.commit (d : Document) (id : NodeId) :
    Inherits d (d.modifyNode id (·.commit.markWritten)) :=
  .modifyNode d id fun n ↦ congrArg (·.1.1) (place_commit n)

theorem Inherits.settleWithin (fuel : Nat) (d : Document) (b : NodeId) :
    Inherits d (d.settleWithin fuel b) :=
  settleWithin_induction (P := Inherits d) (fun d' b id h _ ↦ h.trans (.drop d' b id))
    (fun d' b _ h _ ↦ h.trans (.modifyStore d' b _)) (fun d' b h ↦ h.trans (.modifyStore d' b _))
    (fun d' id h ↦ h.trans (.commit d' id))
    (fun d' b h ↦ h.trans (.modifyNode d' b fun _ ↦ rfl)) (.refl d) fuel b

theorem Inherits.settleOverlays (d : Document) : Inherits d d.settleOverlays :=
  settleOverlays_induction (.refl d) fun d' fuel o _ h ↦ h.trans (.settleWithin fuel d' o)

namespace Owned

theorem belongsTo_of_mem (h : Owned full ov U d) (hs : d.store? b = some s) (he : e ∈ s.entries)
    (hst : e.state ≠ .applied) : d.BelongsTo b e.node := by
  intro n hn
  obtain ⟨m, hm, hiff⟩ := (h.entry b s e hs he).owner
  rw [hn] at hm
  cases hm
  exact hiff.mpr hst

theorem belongsTo_of_mem_inState (h : Owned full ov U d) (state : EntryState)
    (hst : state ≠ .applied) (hid : id ∈ d.inState b state) : d.BelongsTo b id := by
  unfold Document.inState at hid
  split at hid
  · next s hs =>
    obtain ⟨e, he, rfl, rfl⟩ := Store.mem_inState.mp hid
    exact h.belongsTo_of_mem hs he hst
  · simp at hid

theorem modifyEntry (h : Owned full ov U d) {f : Entry → Entry} (hid : d.BelongsTo b id)
    (hf : ∀ e, (f e).node = e.node ∧ (f e).restore = e.restore ∧ (f e).state ≠ .applied ∧
      (f e).state ≠ .toBeRemoved) : Owned full ov U (d.modifyEntry b id f) := by
  refine h.modifyStore_of_subset (h.linked.modifyEntry (fun e ↦ (hf e).1) (fun e ↦ (hf e).2.1) b id)
    fun s hs ↦ ⟨fun e he ↦ ?_, fun x hx ↦ ?_⟩
  · rcases Store.mem_modifyFirst he with he | ⟨e₀, he₀, rfl, rfl⟩
    · exact h.entry b s e hs he
    · obtain ⟨hnode, hrestore, hna, hnr⟩ := hf e₀
      have hfits := h.entry b s e₀ hs he₀
      refine ⟨?_, hrestore ▸ hfits.restore, fun _ ↦ hna, fun hst ↦ absurd hst hnr⟩
      obtain ⟨n, hn, -⟩ := hfits.owner
      exact ⟨n, hnode ▸ hn, by simp [hid n hn, hna]⟩
  · rwa [Store.nodes_modifyEntry fun e ↦ (hf e).1]

theorem markWritten (h : Owned full ov U d) (id : NodeId) :
    Owned full ov U (d.modifyNode id Node.markWritten) :=
  h.modifyNode (h.linked.markWritten id) fun _ _ ↦ rfl

theorem commit (h : Owned full ov U d) (id : NodeId) :
    Owned full ov U (d.modifyNode id (·.commit.markWritten)) :=
  h.modifyNode (h.linked.commit id) fun n _ ↦ place_commit n

theorem mapEntries (h : Owned full ov U d) {f : Store → Store} {g : Entry → Entry}
    (hl : Linked (d.modifyStore b f)) (hf : ∀ s, (f s).entries = s.entries.map g)
    (hg : ∀ e, (g e).node = e.node ∧ ((g e).state = .applied ↔ e.state = .applied) ∧
      (e.restore ≠ some .applied → (g e).restore ≠ some .applied) ∧
      ((g e).staged = true → e.staged = true) ∧
      ((g e).state = .toBeRemoved → e.state = .toBeRemoved)) :
    Owned full ov U (d.modifyStore b f) := by
  refine h.modifyStore_of_subset hl fun s hs ↦ ⟨fun e he ↦ ?_, fun x hx ↦ ?_⟩
  · obtain ⟨e₀, he₀, rfl⟩ := List.mem_map.mp (hf s ▸ he)
    obtain ⟨hn, hst, hr, hstaged, hrem⟩ := hg e₀
    have hfits := h.entry b s e₀ hs he₀
    exact hfits.change hn hst (hr hfits.restore) hstaged fun h ↦ .inl (hrem h)
  · obtain ⟨e₀, he₀, rfl⟩ := List.mem_map.mp hx
    rw [Store.nodes, hf, List.map_map]
    exact List.mem_map.mpr ⟨e₀, he₀, (hg e₀).1⟩

theorem settle (h : Owned full ov U d) (b : NodeId) :
    Owned full ov U (d.modifyStore b Store.settle) := by
  refine h.mapEntries (h.linked.settle b) Store.settle_entries fun e ↦ ?_
  unfold Store.settled
  split <;> simp_all

theorem settleAll (h : Owned full ov U d) (b : NodeId) :
    Owned full ov U (d.modifyStore b Store.settleAll) := by
  refine h.mapEntries (h.linked.settleAll b) Store.settleAll_entries fun e ↦ ?_
  unfold Store.settledAll
  simp only
  split
  · next hst => rcases hst with hst | hst <;> simp [hst]
  · simp

theorem delete (h : Owned full ov (fun _ ↦ False) r.document) (b id : NodeId) :
    Owned full ov (fun _ ↦ False) (r.delete w b id).document ∧
      Inherits r.document (r.delete w b id).document := by
  have hstep := Run.deletion w b id r
  generalize r.delete w b id = r' at hstep
  cases hstep with
  | foreign hid => exact ⟨h.purge hid, .modifyStore _ _ _⟩
  | unwritten hn hp => exact ⟨h.drop hn hp, .drop _ _ _⟩
  | refused => exact ⟨h, .refl _⟩
  | deleted hn hp => exact ⟨h.drop hn hp, .drop _ _ _⟩

theorem create (h : Owned full ov (fun _ ↦ False) r.document) (hid : r.document.BelongsTo b id) :
    Owned full ov (fun _ ↦ False) (r.create w b id).document ∧
      Inherits r.document (r.create w b id).document := by
  have hstep := Run.creation w b id r
  generalize r.create w b id = r' at hstep
  cases hstep with
  | dead => exact ⟨h, .refl _⟩
  | refused hn => exact ⟨h.drop hn (hid _ hn), .drop _ _ _⟩
  | created range hn =>
    have hnode : Owned full ov (fun _ ↦ False) (r.document.modifyNode id (·.createdAt range)) :=
      h.modifyNode (h.linked.createdAt id range) fun n _ ↦ place_createdAt range n
    have hinh : Inherits r.document (r.document.modifyNode id (·.createdAt range)) :=
      .modifyNode _ _ fun n ↦ congrArg (·.1.1) (place_createdAt range n)
    exact ⟨hnode.modifyEntry (hid.inherits hinh)
      fun e ↦ ⟨rfl, rfl, by simp [Entry.createdAt], by simp [Entry.createdAt]⟩,
      hinh.trans (.modifyStore _ _ _)⟩

theorem flush {inner : NodeId → Run σ → Run σ} (h : Owned full ov (fun _ ↦ False) r.document)
    (b id : NodeId)
    (hinner : ∀ i (r' : Run σ), Owned full ov (fun _ ↦ False) r'.document →
      Owned full ov (fun _ ↦ False) (inner i r').document ∧
        Inherits r'.document (inner i r').document) :
    Owned full ov (fun _ ↦ False) (r.flush w inner b id).document ∧
      Inherits r.document (r.flush w inner b id).document := by
  have hstep := Run.flushing w inner b id r
  generalize r.flush w inner b id = r' at hstep
  cases hstep with
  | idle => exact ⟨h, .refl _⟩
  | inside => exact hinner id { r with clean := true } h
  | settled =>
    obtain ⟨ho, hi⟩ := hinner id { r with clean := true } h
    exact ⟨ho.markWritten id, hi.trans (.modifyNode _ _ fun _ ↦ rfl)⟩
  | refused => exact ⟨h, .refl _⟩
  | flushed => exact ⟨h.commit id, .commit _ id⟩

theorem relocate (h : Owned full ov (fun _ ↦ False) r.document)
    (hid : r.document.BelongsTo b id) :
    Owned full ov (fun _ ↦ False) (r.relocate w b id).document ∧
      Inherits r.document (r.relocate w b id).document := by
  have hstep := Run.relocating w b id r
  generalize r.relocate w b id = r' at hstep
  cases hstep with
  | dead => exact ⟨h, .refl _⟩
  | refused => exact ⟨h, .refl _⟩
  | relocated => exact ⟨h.modifyEntry hid
      fun e ↦ ⟨rfl, rfl, by simp [Entry.relocated], by simp [Entry.relocated]⟩, .modifyStore _ _ _⟩

theorem foldl_run {f : Run σ → NodeId → Run σ} {l : List NodeId}
    (h : Owned full ov (fun _ ↦ False) r.document)
    (hl : ∀ id ∈ l, r.document.BelongsTo b id)
    (hf : ∀ (r : Run σ) id, Owned full ov (fun _ ↦ False) r.document → r.document.BelongsTo b id →
      Owned full ov (fun _ ↦ False) (f r id).document ∧ Inherits r.document (f r id).document) :
    Owned full ov (fun _ ↦ False) (l.foldl f r).document ∧
      Inherits r.document (l.foldl f r).document := by
  refine List.foldlRecOn (motive := fun r' : Run σ ↦ Owned full ov (fun _ ↦ False) r'.document ∧
    Inherits r.document r'.document) l f ⟨h, .refl _⟩ ?_
  rintro r' ⟨ho, hi⟩ id hid
  obtain ⟨ho', hi'⟩ := hf r' id ho ((hl id hid).inherits hi)
  exact ⟨ho', hi.trans hi'⟩

theorem belongsTo_of_mem_placeable (h : Owned full ov U d) (hid : id ∈ d.placeable b) :
    d.BelongsTo b id := by
  unfold Document.placeable at hid
  split at hid
  · next s hs =>
    obtain ⟨e, he, hp, rfl⟩ := Store.mem_placeable.mp hid
    refine h.belongsTo_of_mem hs he fun ha ↦ ?_
    simp [Entry.isPlaceable, ha, EntryState.isPlaceable] at hp
  · simp at hid

theorem block (h : Owned full ov (fun _ ↦ False) r.document) (w : Writer σ) (fuel : Nat)
    (b : NodeId) : Owned full ov (fun _ ↦ False) (r.block w fuel b).document ∧
      Inherits r.document (r.block w fuel b).document := by
  induction fuel generalizing b r with
  | zero => exact ⟨h, .refl _⟩
  | succ fuel ih =>
    obtain ⟨h₁, i₁⟩ := h.foldl_run (f := Run.delete w b)
      (fun id hid ↦ h.belongsTo_of_mem_inState .toBeRemoved (by simp) hid)
      fun r id hr _ ↦ hr.delete b id
    obtain ⟨h₂, i₂⟩ := h₁.foldl_run (f := Run.create w b)
      (fun id hid ↦ h₁.belongsTo_of_mem_inState .toBeAdded (by simp) hid)
      fun r id hr hid ↦ hr.create hid
    obtain ⟨h₃, i₃⟩ := h₂.foldl_run (f := Run.flush w (Run.block w fuel) b)
      (fun id hid ↦ h₂.belongsTo_of_mem_placeable hid)
      fun r id hr _ ↦ hr.flush b id fun i r' hr' ↦ ih hr' i
    obtain ⟨h₄, i₄⟩ := h₃.foldl_run (f := Run.relocate w b)
      (fun id hid ↦ h₃.belongsTo_of_mem_inState .moved (by simp) hid)
      fun r id hr hid ↦ hr.relocate hid
    rw [Run.block]
    exact ⟨h₄.settle b, (((i₁.trans i₂).trans i₃).trans i₄).trans (.modifyStore _ _ _)⟩

theorem settleWithin (h : Owned full ov (fun _ ↦ False) d) (fuel : Nat) (b : NodeId) :
    Owned full ov (fun _ ↦ False) (d.settleWithin fuel b) := by
  refine settleWithin_induction (fun d b id hd hown ↦ ?_) (fun d b id hd hnot ↦ ?_)
    (fun d b hd ↦ hd.settleAll b) (fun d id hd ↦ hd.commit id) (fun d b hd ↦ hd.markWritten b) h
    fuel b
  · obtain ⟨n, hn, hp⟩ := isOwnedBy_iff.mp hown
    exact hd.drop hn hp
  · exact hd.purge fun n hn hp ↦ hnot (isOwnedBy_iff.mpr ⟨n, hn, hp⟩)

theorem writeMain (h : Owned full ov (fun _ ↦ False) d) (w : Writer σ) (st : σ) :
    Owned full ov (fun _ ↦ False) (d.writeMain w st).document ∧
      Inherits d (d.writeMain w st).document := by
  obtain ⟨hrun, hi⟩ := block (r := { document := d, writer := st }) h w d.nodes.size root
  unfold Document.writeMain
  split
  · simp only
    split
    · exact ⟨hrun.markWritten root, hi.trans (.modifyNode _ _ fun _ ↦ rfl)⟩
    · exact ⟨hrun, hi⟩
  · exact ⟨h, .refl d⟩

/-- Who owns what stays clear in every run, whatever the writer refuses. -/
theorem apply (h : Owned full ov (fun _ ↦ False) d) (w : Writer σ) (st : σ) :
    Owned full ov (fun _ ↦ False) (d.apply w st).document ∧
      Inherits d (d.apply w st).document := by
  obtain ⟨hmain, hi⟩ := h.writeMain w st
  rw [apply_eq]
  exact ⟨settleOverlays_induction hmain fun _ fuel o _ hd ↦ hd.settleWithin fuel o,
    hi.trans (.settleOverlays _)⟩

end Owned

end BuildScript.Document
