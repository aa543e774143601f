import BuildScript.Proofs.Apply.Calls

namespace BuildScript

/-- What a write makes of an entry. A staged change that is settled leaves the entry existing, a
new one only if `C` holds, and as long as it waits for its removal it keeps what it comes back
to. -/
structure Entry.OnlyUnstages (C : Prop) (e e' : Entry) : Prop where
  node : e'.node = e.node
  state : e'.state = e.state ∨
    e'.state = .existing ∧ (e.state = .moved ∨ e.state = .toBeAdded ∧ C)
  staged : e'.staged = true → e.staged = true
  restore : e'.restore = e.restore ∨ e'.state ≠ .toBeRemoved

namespace Entry.OnlyUnstages

variable {C C' : Prop} {e e' e'' : Entry}

theorem refl (C : Prop) (e : Entry) : e.OnlyUnstages C e := ⟨rfl, .inl rfl, fun h ↦ h, .inl rfl⟩

theorem mono (h : e.OnlyUnstages C e') (hC : C → C') : e.OnlyUnstages C' e' :=
  ⟨h.node, h.state.imp_right fun ⟨he, hs⟩ ↦ ⟨he, hs.imp_right fun ⟨ha, hc⟩ ↦ ⟨ha, hC hc⟩⟩,
    h.staged, h.restore⟩

theorem eq_of_ne (h : e.OnlyUnstages C e') (hs : e'.state ≠ .existing) : e'.state = e.state :=
  h.state.resolve_right fun ⟨he, _⟩ ↦ hs he

theorem trans (h : e.OnlyUnstages C e') (h' : e'.OnlyUnstages C e'') : e.OnlyUnstages C e'' where
  node := h'.node.trans h.node
  state := by
    rcases h'.state with he | ⟨he, hs⟩
    · rw [he]
      exact h.state
    · refine .inr ⟨he, ?_⟩
      have hne : e'.state ≠ .existing := by
        rcases hs with hs | ⟨hs, -⟩ <;> simp [hs]
      rwa [h.eq_of_ne hne] at hs
  staged hs := h.staged (h'.staged hs)
  restore := by
    by_cases hr : e''.state = .toBeRemoved
    · have he' : e'.state = .toBeRemoved := (h'.eq_of_ne (by simp [hr])).symm.trans hr
      have h₁ := h.restore.resolve_right (· he')
      have h₂ := h'.restore.resolve_right (· hr)
      exact .inl (h₂.trans h₁)
    · exact .inr hr

end Entry.OnlyUnstages

namespace Document

variable {C C' : NodeId → NodeId → Prop} {d d' d'' : Document} {b i id x : NodeId} {l : List NodeId}
  {n : Node} {s : Store} {e : Entry} {state : EntryState}

/-- What an apply makes of a document: nodes and entries are only lost, and what is left is staged
no more than it was. In a block `b`, an entry for `x` that was to be added settles only if
`C b x`. -/
structure OnlyUnstages (C : NodeId → NodeId → Prop) (d d' : Document) : Prop
    extends Inherits d d' where
  calm : ∀ x n n', d.node? x = some n → d'.node? x = some n' → n'.holders = n.holders ∧
    n'.isContainer = n.isContainer ∧ (n'.modified = true → n.modified = true) ∧
    (n'.pending.isSome → n.pending.isSome)
  entry : ∀ b s' e', d'.store? b = some s' → e' ∈ s'.entries →
    ∃ s e, d.store? b = some s ∧ e ∈ s.entries ∧ e.OnlyUnstages (C b e.node) e'
  unmoved : ∀ b, d.Unmoved b → d'.Unmoved b

namespace OnlyUnstages

theorem refl (C : NodeId → NodeId → Prop) (d : Document) : OnlyUnstages C d d where
  toInherits := .refl d
  calm x n n' hn hn' := by
    rw [hn] at hn'
    cases hn'
    exact ⟨rfl, rfl, fun h ↦ h, fun h ↦ h⟩
  entry _ s' e' hs he := ⟨s', e', hs, he, .refl _ e'⟩
  unmoved _ hb := hb

theorem mono (h : OnlyUnstages C d d') (hC : ∀ b x, C b x → C' b x) : OnlyUnstages C' d d' where
  toInherits := h.toInherits
  calm := h.calm
  entry b s' e' hs' he' := by
    obtain ⟨s, e, hs, he, hc⟩ := h.entry b s' e' hs' he'
    exact ⟨s, e, hs, he, hc.mono (hC b e.node)⟩
  unmoved := h.unmoved

theorem trans (h : OnlyUnstages C d d') (h' : OnlyUnstages C d' d'') : OnlyUnstages C d d'' where
  toInherits := h.toInherits.trans h'.toInherits
  calm x n n'' hn hn'' := by
    obtain ⟨n', hn', -⟩ := h'.node x n'' hn''
    obtain ⟨hh, hc, hm, hp⟩ := h.calm x n n' hn hn'
    obtain ⟨hh', hc', hm', hp'⟩ := h'.calm x n' n'' hn' hn''
    exact ⟨hh'.trans hh, hc'.trans hc, fun h ↦ hm (hm' h), fun h ↦ hp (hp' h)⟩
  entry b s'' e'' hs'' he'' := by
    obtain ⟨s', e', hs', he', hc'⟩ := h'.entry b s'' e'' hs'' he''
    obtain ⟨s, e, hs, he, hc⟩ := h.entry b s' e' hs' he'
    rw [hc.node] at hc'
    exact ⟨s, e, hs, he, hc.trans hc'⟩
  unmoved b hb := h'.unmoved b (h.unmoved b hb)

theorem modifyNode (d : Document) (i : NodeId) {f : Node → Node}
    (hf : ∀ n, d.node? i = some n → (f n).parent = n.parent ∧ (f n).holders = n.holders ∧
      (f n).isContainer = n.isContainer ∧ ((f n).modified = true → n.modified = true) ∧
      ((f n).pending.isSome → n.pending.isSome)) : OnlyUnstages C d (d.modifyNode i f) := by
  have hnode : ∀ x n', (d.modifyNode i f).node? x = some n' → ∃ n, d.node? x = some n ∧
      n'.parent = n.parent ∧ n'.holders = n.holders ∧ n'.isContainer = n.isContainer ∧
      (n'.modified = true → n.modified = true) ∧ (n'.pending.isSome → n.pending.isSome) := by
    intro x n' hn'
    rcases node?_of_modifyNode hn' with ⟨rfl, n, hn, rfl⟩ | ⟨-, hn'⟩
    · exact ⟨n, hn, hf n hn⟩
    · exact ⟨n', hn', rfl, rfl, rfl, fun h ↦ h, fun h ↦ h⟩
  refine ⟨⟨fun x n' hn' ↦ ?_, rfl, nextId_modifyNode d i f⟩, fun x n n' hn hn' ↦ ?_,
    fun b s' e' hs he ↦ ⟨s', e', hs, he, .refl _ e'⟩, fun _ hb ↦ hb⟩
  · obtain ⟨n, hn, hp, -⟩ := hnode x n' hn'
    exact ⟨n, hn, hp⟩
  · obtain ⟨n₀, hn₀, -, hrest⟩ := hnode x n' hn'
    rw [hn] at hn₀
    cases hn₀
    exact hrest

theorem modifyStore (d : Document) (b : NodeId) {f : Store → Store}
    (hf : ∀ s, d.store? b = some s → ∀ e' ∈ (f s).entries,
      ∃ e ∈ s.entries, e.OnlyUnstages (C b e.node) e')
    (hu : ∀ s : Store, s.baseline = none → (f s).baseline = none) :
    OnlyUnstages C d (d.modifyStore b f) where
  toInherits := .modifyStore d b f
  calm x n n' hn hn' := by
    rw [node?_modifyStore, hn] at hn'
    cases hn'
    exact ⟨rfl, rfl, fun h ↦ h, fun h ↦ h⟩
  entry c s' e' hs' he' := by
    rcases store?_of_modifyStore hs' with ⟨rfl, s, hs, rfl⟩ | ⟨-, hs'⟩
    · obtain ⟨e, he, hunstages⟩ := hf s hs e' he'
      exact ⟨s, e, hs, he, hunstages⟩
    · exact ⟨s', e', hs', he', .refl _ e'⟩
  unmoved _ hb := hb.modifyStore fun s _ ↦ hu s

theorem purge (d : Document) (b id : NodeId) : OnlyUnstages C d (d.purge b id) :=
  .modifyStore d b (fun _ _ e he ↦ ⟨e, List.eraseP_sublist.subset he, .refl _ e⟩) fun _ hs ↦ hs

theorem release (h : Linked d) (id : NodeId) : OnlyUnstages C d (d.release id) where
  toInherits := .release d id
  calm x n n' hn hn' := by
    have hn'' := node?_of_release hn'
    rw [hn] at hn''
    cases hn''
    exact ⟨rfl, rfl, fun h ↦ h, fun h ↦ h⟩
  entry b s' e' hs' he' := by
    obtain ⟨s, hs, -, hsub⟩ := store?_foldl_evict_sublist h.distinct hs'
    exact ⟨s, e', hs, hsub.subset he', .refl _ e'⟩
  unmoved b hb s' hs' := by
    obtain ⟨s, hs, hkept, -⟩ := store?_foldl_evict_sublist h.distinct hs'
    exact hkept.trans (hb s hs)

theorem drop (h : Linked d) (b id : NodeId) : OnlyUnstages C d ((d.purge b id).release id) :=
  (purge d b id).trans (release (h.purge b id) id)

theorem commit (d : Document) (id : NodeId) :
    OnlyUnstages C d (d.modifyNode id (·.commit.markWritten)) := by
  refine modifyNode d id fun n _ ↦ ?_
  obtain ⟨hp, hh, hc, hpending⟩ := n.commit_fields
  exact ⟨hp, hh, hc, by simp [Node.markWritten], by simp [Node.markWritten, hpending]⟩

theorem markWritten (d : Document) (id : NodeId) :
    OnlyUnstages C d (d.modifyNode id Node.markWritten) :=
  modifyNode d id fun _ _ ↦ ⟨rfl, rfl, rfl, by simp [Node.markWritten], fun h ↦ h⟩

theorem createdAt (d : Document) (id : NodeId) (range : SourceRange) :
    OnlyUnstages C d (d.modifyNode id (·.createdAt range)) := by
  refine modifyNode d id fun n _ ↦ ?_
  have hplace := place_createdAt range n
  simp only [place, post, Prod.mk.injEq] at hplace
  refine ⟨hplace.1.1, hplace.2, hplace.1.2, fun h ↦ ?_, fun h ↦ ?_⟩
  · rw [Node.modified_createdAt, Bool.and_eq_true] at h
    exact h.1
  · simp only [Node.createdAt] at h
    split at h
    · exact h
    · obtain ⟨-, -, -, hpending⟩ := Node.commit_fields { n with source := some range }
      simp [Node.markWritten, hpending] at h

theorem modifyEntry (hends : EndsIn b state d id) {f : Entry → Entry}
    (hf : ∀ e : Entry, e.state = state → e.node = id → e.OnlyUnstages (C b e.node) (f e)) :
    OnlyUnstages C d (d.modifyEntry b id f) := by
  refine modifyStore d b (fun s hs e' he' ↦ ?_) fun _ hs ↦ hs
  rcases Store.mem_modifyFirst he' with he' | ⟨e, he, hid, rfl⟩
  · exact ⟨e', he', .refl _ e'⟩
  · exact ⟨e, he, hf e (hends s hs e he hid) hid⟩

theorem entryCreatedAt (hends : EndsIn b .toBeAdded d id) (hC : C b id) (range : SourceRange) :
    OnlyUnstages C d (d.modifyEntry b id (·.createdAt range)) := by
  refine modifyEntry hends fun e hst hid ↦ ?_
  exact ⟨rfl, .inr ⟨rfl, .inr ⟨hst, hid ▸ hC⟩⟩, by simp [Entry.createdAt], .inl rfl⟩

theorem created (hends : EndsIn b .toBeAdded d id) (hC : C b id) (range : SourceRange) :
    OnlyUnstages C d
      ((d.modifyNode id (·.createdAt range)).modifyEntry b id (·.createdAt range)) := by
  have hends' : EndsIn b .toBeAdded (d.modifyNode id (·.createdAt range)) id := hends
  exact (createdAt d id range).trans (entryCreatedAt hends' hC range)

theorem relocated (hends : EndsIn b .moved d id) :
    OnlyUnstages C d (d.modifyEntry b id Entry.relocated) :=
  modifyEntry hends fun _ hst _ ↦ ⟨rfl, .inr ⟨rfl, .inl hst⟩, fun hs ↦ hs, .inl rfl⟩

theorem settle (d : Document) (b : NodeId) : OnlyUnstages C d (d.modifyStore b Store.settle) := by
  refine modifyStore d b (fun s _ e' he' ↦ ?_) fun _ h ↦ Store.settle_baseline (.inl h)
  rw [Store.settle_entries] at he'
  obtain ⟨e, he, rfl⟩ := List.mem_map.mp he'
  refine ⟨e, he, ?_⟩
  unfold Store.settled
  split
  · exact .refl _ e
  · next hr => exact ⟨rfl, .inl rfl, by simp, .inr hr⟩

end OnlyUnstages

def Spares (b id : NodeId) (d d' : Document) : Prop :=
  ∀ s' e, d'.store? b = some s' → e ∈ s'.entries → e.node ≠ id →
    ∃ s, d.store? b = some s ∧ e ∈ s.entries

theorem EndsIn.spared (h : EndsIn b state d i) (hs : Spares b id d d') (hne : i ≠ id) :
    EndsIn b state d' i := by
  intro s' hs' e he hi
  obtain ⟨s, hs₀, he₀⟩ := hs s' e hs' he (hi ▸ hne)
  exact h s hs₀ e he₀ hi

theorem Spares.drop (h : Linked d) (b id : NodeId) : Spares b id d ((d.purge b id).release id) := by
  intro s' e hs' he _
  obtain ⟨s, hs, -, hsub⟩ := store?_foldl_evict_sublist (h.purge b id).distinct hs'
  rw [Document.purge, store?_modifyStore, if_pos rfl] at hs
  obtain ⟨s₀, hs₀, rfl⟩ := Option.map_eq_some_iff.mp hs
  exact ⟨s₀, hs₀, List.eraseP_sublist.subset (hsub.subset he)⟩

theorem Spares.modifyEntry (d : Document) (b id : NodeId) {f : Entry → Entry}
    (hf : ∀ e, (f e).node = e.node) : Spares b id d (d.modifyEntry b id f) := by
  intro s' e hs' he hne
  rw [Document.modifyEntry, store?_modifyStore, if_pos rfl] at hs'
  obtain ⟨s, hs, rfl⟩ := Option.map_eq_some_iff.mp hs'
  exact ⟨s, hs, (Store.mem_modifyEntry_of_ne hf hne).mp he⟩

def Unlisted (b id : NodeId) (d : Document) : Prop := ∀ s, d.store? b = some s → id ∉ s.nodes

theorem Unlisted.onlyUnstages (h : Unlisted b id d) (hc : OnlyUnstages C d d') :
    Unlisted b id d' := by
  intro s' hs' hmem
  obtain ⟨e', he', rfl⟩ := List.mem_map.mp hmem
  obtain ⟨s, e, hs, he, hunstages⟩ := hc.entry b s' e' hs' he'
  rw [hunstages.node] at h
  exact h s hs (Store.mem_nodes_of_mem he)

theorem unlisted_purge (h : Linked d) (b id : NodeId) : Unlisted b id (d.purge b id) := by
  intro s hs
  rw [Document.purge, store?_modifyStore, if_pos rfl] at hs
  obtain ⟨s₀, hs₀, rfl⟩ := Option.map_eq_some_iff.mp hs
  exact Store.not_mem_nodes_purge (h.store b s₀ hs₀).nodup

theorem mem_of_mem_purge {s' : Store} (hs' : (d.purge b id).store? x = some s')
    (he : e ∈ s'.entries) : ∃ s, d.store? x = some s ∧ e ∈ s.entries := by
  rcases store?_of_modifyStore hs' with ⟨-, s, hs, rfl⟩ | ⟨-, hs'⟩
  · exact ⟨s, hs, List.eraseP_sublist.subset he⟩
  · exact ⟨s', hs', he⟩

theorem Linked.placeable_nodup (h : Linked d) (b : NodeId) : (d.placeable b).Nodup := by
  unfold placeable
  split
  · next s hs => exact Store.placeable_nodup (h.store b s hs).nodup
  · exact List.nodup_nil

theorem Linked.inState_nodup (h : Linked d) (b : NodeId) (state : EntryState) :
    (d.inState b state).Nodup := by
  unfold inState
  split
  · next s hs => exact Store.inState_nodup (h.store b s hs).nodup state
  · exact List.nodup_nil

end Document

namespace Run

open Document

variable {σ : Type} {w : Writer σ} {b id : NodeId} {r r' r'' : Run σ}

/-- One run goes on as another. What was to be added settles only by a creation, and what is left
to try again stays left. -/
structure Continues (r r' : Run σ) : Prop where
  created : r.report.created ⊆ r'.report.created
  failures : r.report.failures ⊆ r'.report.failures
  clean : r'.clean = true → r.clean = true
  onlyUnstages : OnlyUnstages (fun _ x ↦ x ∈ r'.report.created) r.document r'.document

namespace Continues

theorem refl (r : Run σ) : Continues r r := ⟨fun _ h ↦ h, fun _ h ↦ h, fun h ↦ h, .refl _ _⟩

theorem trans (h : Continues r r') (h' : Continues r' r'') : Continues r r'' where
  created _ hx := h'.created (h.created hx)
  failures _ hf := h'.failures (h.failures hf)
  clean hx := h.clean (h'.clean hx)
  onlyUnstages := (h.onlyUnstages.mono fun _ _ hx ↦ h'.created hx).trans h'.onlyUnstages

theorem delete (h : Linked r.document) (b id : NodeId) : Continues r (r.delete w b id) := by
  have hd := deletion w b id r
  generalize r.delete w b id = r' at hd
  cases hd with
  | foreign => exact ⟨fun _ h ↦ h, fun _ h ↦ h, fun h ↦ h, .purge _ b id⟩
  | unwritten => exact ⟨fun _ h ↦ h, fun _ h ↦ h, fun h ↦ h, .drop h b id⟩
  | refused =>
    exact ⟨fun _ h ↦ h, fun _ h ↦ List.mem_append_left _ h, by simp [unclean], .refl _ _⟩
  | deleted => exact ⟨fun _ h ↦ h, fun _ h ↦ h, fun h ↦ h, .drop h b id⟩

theorem create (h : Linked r.document) (hends : EndsIn b .toBeAdded r.document id) :
    Continues r (r.create w b id) ∧ Spares b id r.document (r.create w b id).document := by
  have hc := creation w b id r
  generalize r.create w b id = r' at hc
  cases hc with
  | dead => exact ⟨.refl r, fun s e hs he _ ↦ ⟨s, hs, he⟩⟩
  | refused =>
    exact ⟨⟨fun _ h ↦ h, fun _ h ↦ List.mem_append_left _ h, fun h ↦ h, .drop h b id⟩,
      .drop h b id⟩
  | created range =>
    exact ⟨⟨fun _ h ↦ List.mem_append_left _ h, fun _ h ↦ h, fun h ↦ h,
      .created hends (List.mem_append_right _ List.mem_cons_self) range⟩,
      Spares.modifyEntry _ b id fun _ ↦ rfl⟩

theorem relocate (hends : EndsIn b .moved r.document id) :
    Continues r (r.relocate w b id) ∧ Spares b id r.document (r.relocate w b id).document := by
  have hc := relocating w b id r
  generalize r.relocate w b id = r' at hc
  cases hc with
  | dead => exact ⟨.refl r, fun s e hs he _ ↦ ⟨s, hs, he⟩⟩
  | refused =>
    exact ⟨⟨fun _ h ↦ h, fun _ h ↦ List.mem_append_left _ h, by simp [unclean], .refl _ _⟩,
      fun s e hs he _ ↦ ⟨s, hs, he⟩⟩
  | relocated =>
    exact ⟨⟨fun _ h ↦ h, fun _ h ↦ h, fun h ↦ h, .relocated hends⟩,
      .modifyEntry _ b id fun _ ↦ rfl⟩

theorem flush {inner : NodeId → Run σ → Run σ} (b id : NodeId)
    (hin : Continues { r with clean := true } (inner id { r with clean := true })) :
    Continues r (r.flush w inner b id) := by
  have hf := flushing w inner b id r
  generalize r.flush w inner b id = r' at hf
  cases hf with
  | idle => exact .refl r
  | inside _ _ _ hunclean => exact ⟨hin.created, hin.failures, by simp [hunclean], hin.onlyUnstages⟩
  | settled => exact ⟨hin.created, hin.failures, fun h ↦ h,
    hin.onlyUnstages.trans (.markWritten _ id)⟩
  | refused =>
    exact ⟨fun _ h ↦ h, fun _ h ↦ List.mem_append_left _ h, by simp [unclean], .refl _ _⟩
  | flushed => exact ⟨fun _ h ↦ h, fun _ h ↦ h, fun h ↦ h, .commit _ id⟩

/-- Steps that keep `I`, where `P` is what a step needs of the nodes whose turn has not come. Each
node has its turn. -/
theorem foldl {I : Document → Prop} {P : Document → NodeId → Prop} {f : Run σ → NodeId → Run σ}
    {l : List NodeId}
    (hf : ∀ (r : Run σ) id, I r.document → P r.document id →
      I (f r id).document ∧ Continues r (f r id) ∧
        ∀ i, i ≠ id → P r.document i → P (f r id).document i)
    (hl : l.Nodup) (h : I r.document) (hP : ∀ id ∈ l, P r.document id) :
    I (l.foldl f r).document ∧ Continues r (l.foldl f r) ∧
      ∀ id ∈ l, ∃ r₁ : Run σ, I r₁.document ∧ P r₁.document id ∧ Continues r r₁ ∧
        Continues (f r₁ id) (l.foldl f r) := by
  induction l generalizing r with
  | nil => exact ⟨h, .refl r, by simp⟩
  | cons id l ih =>
    obtain ⟨hnot, hl⟩ := List.nodup_cons.mp hl
    obtain ⟨h', hunstages, hkeep⟩ := hf r id h (hP id List.mem_cons_self)
    obtain ⟨hlast, hrest, hturn⟩ := ih hl h' fun i hi ↦
      hkeep i (fun he ↦ hnot (he ▸ hi)) (hP i (List.mem_cons_of_mem _ hi))
    refine ⟨hlast, hunstages.trans hrest, fun i hi ↦ ?_⟩
    rcases List.mem_cons.mp hi with rfl | hi
    · exact ⟨r, h, hP i List.mem_cons_self, .refl r, hrest⟩
    · obtain ⟨r₁, h₁, hP₁, hc₁, hc₂⟩ := hturn i hi
      exact ⟨r₁, h₁, hP₁, hunstages.trans hc₁, hc₂⟩

theorem deletions (h : Linked r.document) (b : NodeId) :
    Linked (r.deletions w b).document ∧ Continues r (r.deletions w b) ∧
      ∀ id ∈ r.document.inState b .toBeRemoved, ∃ r₁ : Run σ, Linked r₁.document ∧
        Continues r r₁ ∧ Continues (r₁.delete w b id) (r.deletions w b) := by
  obtain ⟨hl, hc, hturn⟩ := foldl (P := fun _ _ ↦ True)
    (fun _ id h _ ↦ ⟨h.delete (w := w) b id, .delete h b id, fun _ _ h ↦ h⟩)
    (h.inState_nodup b .toBeRemoved) h fun _ _ ↦ trivial
  refine ⟨hl, hc, fun id hid ↦ ?_⟩
  obtain ⟨r₁, h₁, -, hc₁, hc₂⟩ := hturn id hid
  exact ⟨r₁, h₁, hc₁, hc₂⟩

theorem foldl_create {l : List NodeId} (h : Linked r.document) (hl : l.Nodup)
    (hmem : ∀ id ∈ l, id ∈ r.document.inState b .toBeAdded) :
    Linked (l.foldl (Run.create w b) r).document ∧ Continues r (l.foldl (Run.create w b) r) ∧
      ∀ id ∈ l, ∃ r₁ : Run σ, Linked r₁.document ∧
        Continues (r₁.create w b id) (l.foldl (Run.create w b) r) := by
  obtain ⟨hlast, hc, hturn⟩ := foldl (P := fun d id ↦ id ≠ root ∧ EndsIn b .toBeAdded d id)
    (fun r id h hid ↦ by
      obtain ⟨hunstages, hspare⟩ := create (w := w) h hid.2
      exact ⟨h.create b hid.1, hunstages, fun i hi hP ↦ ⟨hP.1, hP.2.spared hspare hi⟩⟩)
    hl h fun id hid ↦ ⟨h.mem_inState_ne_root (hmem id hid), h.endsIn (hmem id hid)⟩
  refine ⟨hlast, hc, fun id hid ↦ ?_⟩
  obtain ⟨r₁, h₁, -, -, hc₂⟩ := hturn id hid
  exact ⟨r₁, h₁, hc₂⟩

theorem creations (h : Linked r.document) (b : NodeId) :
    Linked (r.creations w b).document ∧ Continues r (r.creations w b) ∧
      ∀ id ∈ r.document.inState b .toBeAdded, ∃ r₁ : Run σ, Linked r₁.document ∧
        Continues (r₁.create w b id) (r.creations w b) :=
  foldl_create h (h.inState_nodup b .toBeAdded) fun _ hid ↦ hid

theorem foldl_relocate {l : List NodeId} (h : Linked r.document) (hl : l.Nodup)
    (hmem : ∀ id ∈ l, id ∈ r.document.inState b .moved) :
    Linked (l.foldl (Run.relocate w b) r).document ∧ Continues r (l.foldl (Run.relocate w b) r) ∧
      ∀ id ∈ l, ∃ r₁ : Run σ, Linked r₁.document ∧
        Continues r r₁ ∧ Continues (r₁.relocate w b id) (l.foldl (Run.relocate w b) r) := by
  obtain ⟨hlast, hc, hturn⟩ := foldl (P := fun d id ↦ EndsIn b .moved d id)
    (fun r id h hid ↦ by
      obtain ⟨hunstages, hspare⟩ := relocate (w := w) hid
      exact ⟨h.relocate b id, hunstages, fun i hi hP ↦ hP.spared hspare hi⟩)
    hl h fun id hid ↦ h.endsIn (hmem id hid)
  refine ⟨hlast, hc, fun id hid ↦ ?_⟩
  obtain ⟨r₁, h₁, -, hc₁, hc₂⟩ := hturn id hid
  exact ⟨r₁, h₁, hc₁, hc₂⟩

theorem relocations (h : Linked r.document) (b : NodeId) :
    Linked (r.relocations w b).document ∧ Continues r (r.relocations w b) ∧
      ∀ id ∈ r.document.inState b .moved, ∃ r₁ : Run σ, Linked r₁.document ∧
        Continues r r₁ ∧ Continues (r₁.relocate w b id) (r.relocations w b) :=
  foldl_relocate h (h.inState_nodup b .moved) fun _ hid ↦ hid

theorem foldl_flush {fuel : Nat} {l : List NodeId}
    (hin : ∀ id (r : Run σ), Linked r.document → Continues r (r.block w fuel id))
    (h : Linked r.document) (hl : l.Nodup) (b : NodeId) :
    Linked (l.foldl (Run.flush w (Run.block w fuel) b) r).document ∧
      Continues r (l.foldl (Run.flush w (Run.block w fuel) b) r) := by
  obtain ⟨hlast, hc, -⟩ := foldl (P := fun _ _ ↦ True) (fun r id h _ ↦
    ⟨h.flush (w := w) b id fun i r' h' ↦ h'.block w fuel i, flush b id (hin id _ h),
      fun _ _ h ↦ h⟩) hl h fun _ _ ↦ trivial
  exact ⟨hlast, hc⟩

theorem flushes {fuel : Nat} (hin : ∀ id (r : Run σ), Linked r.document →
    Continues r (r.block w fuel id))
    (h : Linked r.document) (b : NodeId) :
    Linked (r.flushes w fuel b).document ∧ Continues r (r.flushes w fuel b) :=
  foldl_flush hin h (h.placeable_nodup b) b

theorem settle (r : Run σ) (b : NodeId) :
    Continues r { r with document := r.document.modifyStore b Store.settle } :=
  ⟨fun _ h ↦ h, fun _ h ↦ h, fun h ↦ h, .settle _ b⟩

theorem block (w : Writer σ) (fuel : Nat) (b : NodeId) (r : Run σ) (h : Linked r.document) :
    Continues r (r.block w fuel b) := by
  induction fuel generalizing b r with
  | zero => exact .refl r
  | succ fuel ih =>
    obtain ⟨h₁, hdel, -⟩ := deletions (w := w) h b
    obtain ⟨h₂, hcre, -⟩ := creations (w := w) h₁ b
    obtain ⟨h₃, hflu⟩ := flushes ih h₂ b
    obtain ⟨-, hrel, -⟩ := relocations (w := w) h₃ b
    have hphases : Continues r (r.phases w fuel b) := ((hdel.trans hcre).trans hflu).trans hrel
    rw [block_succ]
    exact hphases.trans (.settle _ b)

end Continues

/-- A block has no live node to add under this number. -/
def Added (b id : NodeId) (d : Document) : Prop :=
  ∀ s e, d.store? b = some s → e ∈ s.entries → e.node = id → e.state = .toBeAdded →
    d.node? id = none

theorem Added.onlyUnstages {C : NodeId → NodeId → Prop} {d d' : Document} (h : Added b id d)
    (hc : OnlyUnstages C d d') : Added b id d' := by
  intro s' e' hs' he' hid hst
  obtain ⟨s, e, hs, he, hunstages⟩ := hc.entry b s' e' hs' he'
  have hst' : e.state = .toBeAdded := (hunstages.eq_of_ne (by simp [hst])).symm.trans hst
  have hdead := h s e hs he (hunstages.node.symm.trans hid) hst'
  cases hn : d'.node? id with
  | none => rfl
  | some n' =>
    obtain ⟨n, hn, -⟩ := hc.node id n' hn
    simp [hdead] at hn

theorem added_create (h : Linked r.document) (b id : NodeId) :
    Added b id (r.create w b id).document := by
  have hc := creation w b id r
  generalize r.create w b id = r' at hc
  intro s e hs he hid hst
  cases hc with
  | dead hn => exact hn
  | refused =>
    have hun := (unlisted_purge h b id).onlyUnstages
      (OnlyUnstages.release (C := fun _ _ ↦ True) (h.purge b id) id)
    exact absurd (hid ▸ Store.mem_nodes_of_mem he) (hun s hs)
  | created range hn =>
    rw [pass, Document.modifyEntry, store?_modifyStore, if_pos rfl, store?_modifyNode] at hs
    obtain ⟨s₀, hs₀, rfl⟩ := Option.map_eq_some_iff.mp hs
    obtain ⟨e₀, -, -, rfl⟩ := Store.mem_modifyEntry_self (h.store b s₀ hs₀).nodup he hid
    simp [Entry.createdAt] at hst

theorem added_creations (h : Linked r.document) (b : NodeId) {s : Store} {e : Entry}
    (hs : (r.creations w b).document.store? b = some s) (he : e ∈ s.entries)
    (hst : e.state = .toBeAdded) : (r.creations w b).document.node? e.node = none := by
  obtain ⟨-, hunstages, hturn⟩ := Continues.creations (w := w) h b
  obtain ⟨s₀, e₀, hs₀, he₀, hc⟩ := hunstages.onlyUnstages.entry b s e hs he
  have hst₀ : e₀.state = .toBeAdded := (hc.eq_of_ne (by simp [hst])).symm.trans hst
  have hmem : e.node ∈ r.document.inState b .toBeAdded :=
    mem_inState.mpr ⟨s₀, hs₀, e₀, he₀, hst₀, hc.node.symm⟩
  obtain ⟨r₁, h₁, hrest⟩ := hturn e.node hmem
  exact (added_create h₁ b e.node).onlyUnstages hrest.onlyUnstages s e hs he rfl hst

end Run

namespace Document

variable {C : NodeId → NodeId → Prop} {d d' : Document} {b i id o x : NodeId} {l : List NodeId}
  {s : Store} {e : Entry} {σ : Type}

def dropRemoval (b : NodeId) (d : Document) (id : NodeId) : Document :=
  if d.isOwnedBy id b then (d.purge b id).release id else d.purge b id

def dropRemovals (d : Document) (b : NodeId) : Document :=
  (d.inState b .toBeRemoved).foldl (dropRemoval b) d

def settleChild (fuel : Nat) (b : NodeId) (d : Document) (id : NodeId) : Document :=
  if !d.isOwnedBy id b then d
  else if (d.store? id).isSome then settleWithin fuel d id
  else d.modifyNode id (·.commit.markWritten)

theorem settleWithin_succ (fuel : Nat) (d : Document) (b : NodeId) :
    settleWithin (fuel + 1) d b = ((((d.dropRemovals b).entries b).map (·.node)).foldl
      (settleChild fuel b) ((d.dropRemovals b).modifyStore b Store.settleAll)).modifyNode b
        Node.markWritten := rfl

theorem dropRemoval_spec (h : Linked d) (b id : NodeId) :
    Linked (d.dropRemoval b id) ∧ OnlyUnstages C d (d.dropRemoval b id) ∧
      Unlisted b id (d.dropRemoval b id) := by
  have hun := unlisted_purge h b id
  unfold dropRemoval
  split
  · next hown =>
    obtain ⟨n, hn, hp⟩ := isOwnedBy_iff.mp hown
    exact ⟨h.purge_release (h.ne_root_of_parent hn hp), .drop h b id,
      hun.onlyUnstages (.release (C := C) (h.purge b id) id)⟩
  · exact ⟨h.purge b id, .purge d b id, hun⟩

theorem foldl_dropRemoval (l : List NodeId) (h : Linked d) (b : NodeId) :
    Linked (l.foldl (dropRemoval b) d) ∧ OnlyUnstages C d (l.foldl (dropRemoval b) d) ∧
      ∀ id ∈ l, Unlisted b id (l.foldl (dropRemoval b) d) := by
  induction l generalizing d with
  | nil => exact ⟨h, .refl _ d, by simp⟩
  | cons id l ih =>
    obtain ⟨h', hc, hun⟩ := dropRemoval_spec (C := C) h b id
    obtain ⟨hlast, hrest, hall⟩ := ih h'
    refine ⟨hlast, hc.trans hrest, fun i hi ↦ ?_⟩
    rcases List.mem_cons.mp hi with rfl | hi
    · exact hun.onlyUnstages hrest
    · exact hall i hi

theorem dropRemovals_spec (C : NodeId → NodeId → Prop) (h : Linked d) (b : NodeId) :
    Linked (d.dropRemovals b) ∧ OnlyUnstages C d (d.dropRemovals b) ∧
      ∀ s e, (d.dropRemovals b).store? b = some s → e ∈ s.entries → e.state ≠ .toBeRemoved := by
  obtain ⟨h', hc, hun⟩ := foldl_dropRemoval (C := C) (d.inState b .toBeRemoved) h b
  refine ⟨h', hc, fun s e hs he hst ↦ ?_⟩
  obtain ⟨s₀, e₀, hs₀, he₀, hunstages⟩ := hc.entry b s e hs he
  have hst₀ : e₀.state = .toBeRemoved := (hunstages.eq_of_ne (by simp [hst])).symm.trans hst
  have hmem : e₀.node ∈ d.inState b .toBeRemoved := mem_inState.mpr ⟨s₀, hs₀, e₀, he₀, hst₀, rfl⟩
  exact hun e₀.node hmem s hs (hunstages.node ▸ Store.mem_nodes_of_mem he)

namespace OnlyUnstages

theorem settleAll (hC : ∀ x, C b x)
    (hr : ∀ s e, d.store? b = some s → e ∈ s.entries → e.state ≠ .toBeRemoved) :
    OnlyUnstages C d (d.modifyStore b Store.settleAll) := by
  refine modifyStore d b (fun s hs e' he' ↦ ?_) fun s _ ↦ s.settleAll_baseline
  rw [Store.settleAll_entries] at he'
  obtain ⟨e, he, rfl⟩ := List.mem_map.mp he'
  refine ⟨e, he, rfl, ?_, by simp [Store.settledAll], .inr ?_⟩
  · by_cases hst : e.state = .toBeAdded ∨ e.state = .moved
    · refine .inr ⟨by simp [Store.settledAll, hst], hst.symm.imp_right fun h ↦ ⟨h, hC e.node⟩⟩
    · exact .inl (by simp [Store.settledAll, hst])
  · simp only [Store.settledAll]
    split
    · simp
    · exact hr s e hs he

theorem settleChildren {fuel : Nat} {d₀ : Document}
    (ih : ∀ (d : Document) b, Linked d →
      OnlyUnstages (fun c _ ↦ Below d b c) d (settleWithin fuel d b)) (l : List NodeId)
    (h : Linked d) (hi : Inherits d₀ d) :
    Linked (l.foldl (settleChild fuel b) d) ∧
      OnlyUnstages (fun c _ ↦ Below d₀ b c) d (l.foldl (settleChild fuel b) d) := by
  induction l generalizing d with
  | nil => exact ⟨h, .refl _ d⟩
  | cons id l ihl =>
    have hstep : Linked (settleChild fuel b d id) ∧
        OnlyUnstages (fun c _ ↦ Below d₀ b c) d (settleChild fuel b d id) := by
      unfold settleChild
      split
      · exact ⟨h, .refl _ d⟩
      · next hown =>
        split
        · refine ⟨h.settleWithin fuel id, (ih d id h).mono fun c _ hc ↦ ?_⟩
          obtain ⟨n, hn, hp⟩ := isOwnedBy_iff.mp (by simpa using hown)
          exact hi.below ((Below.child hn hp).trans hc)
        · exact ⟨h.commit id, .commit d id⟩
    obtain ⟨hlast, hrest⟩ := ihl hstep.1 (hi.trans hstep.2.toInherits)
    exact ⟨hlast, hstep.2.trans hrest⟩

theorem settleWithin (fuel : Nat) (d : Document) (b : NodeId) (h : Linked d) :
    OnlyUnstages (fun c _ ↦ Below d b c) d (settleWithin fuel d b) := by
  induction fuel generalizing d b with
  | zero => exact .refl _ d
  | succ fuel ih =>
    obtain ⟨h', hc, hr⟩ := dropRemovals_spec (fun c _ ↦ Below d b c) h b
    have hall := settleAll (C := fun c _ ↦ Below d b c) (fun _ ↦ .refl) hr
    obtain ⟨-, hchildren⟩ :=
      settleChildren (b := b) ih (((d.dropRemovals b).entries b).map (·.node))
      (h'.settleAll b) (hc.toInherits.trans hall.toInherits)
    rw [settleWithin_succ]
    exact ((hc.trans hall).trans hchildren).trans (.markWritten _ b)

theorem settleOverlays (h : Linked d) :
    OnlyUnstages (fun c _ ↦ ∃ o ∈ d.overlays, Below d o c) d d.settleOverlays :=
  (settleOverlays_induction
    (P := fun d' ↦ Linked d' ∧ OnlyUnstages (fun c _ ↦ ∃ o ∈ d.overlays, Below d o c) d d')
    ⟨h, .refl _ d⟩ fun d' fuel o ho ⟨h', hc⟩ ↦ ⟨h'.settleWithin fuel o, hc.trans
      ((settleWithin fuel d' o h').mono fun _ _ hb ↦ ⟨o, ho, hc.below hb⟩)⟩).2

theorem writeMain (h : Linked d) (w : Writer σ) (st : σ) :
    OnlyUnstages (fun _ x ↦ x ∈ (d.writeMain w st).report.created) d
      (d.writeMain w st).document := by
  unfold Document.writeMain
  split
  · have hb := Run.Continues.block w d.nodes.size root { document := d, writer := st } h
    refine hb.onlyUnstages.trans ?_
    dsimp only
    split
    · exact .markWritten _ root
    · exact .refl _ _
  · exact .refl _ d

theorem apply (h : Linked d) (w : Writer σ) (st : σ) :
    OnlyUnstages (fun c x ↦ x ∈ (d.apply w st).report.created ∨ ∃ o ∈ d.overlays, Below d o c) d
      (d.apply w st).document := by
  have hw := writeMain h w st
  have hs := settleOverlays (h.writeMain w st)
  rw [apply_eq]
  refine (hw.mono fun _ _ hx ↦ .inl hx).trans (hs.mono ?_)
  intro c _ hc
  obtain ⟨o, ho, hb⟩ := hc
  exact .inr ⟨o, hw.overlays ▸ ho, hw.below hb⟩

end OnlyUnstages

end Document

end BuildScript
