import BuildScript.Proofs.Traces

namespace BuildScript

namespace Document

variable {C : NodeId → NodeId → Prop} {K : NodeId → Prop} {d d' : Document} {b id p x : NodeId}
  {n : Node} {s : Store} {e : Entry} {state : EntryState} {σ : Type} {w : Writer σ} {r : Run σ}

theorem clear_of_leaf (h : Linked d) (hn : d.node? x = some n) (hp : n.pending = none)
    (hc : n.isContainer = false) : d.Clear x := by
  have hs := h.keyed x
  rw [hn, Option.any_some, hc, Option.isSome_eq_false_iff, Option.isNone_iff_eq_none] at hs
  exact ⟨by simp [isStagedAt, hn, hp, hs], fun s hs' ↦ by simp [hs] at hs'⟩

theorem settled_of_leaf (h : Linked d) (hn : d.node? x = some n) (hp : n.pending = none)
    (hc : n.isContainer = false) : d.Settled x := by
  refine ⟨clear_of_leaf h hn hp hc, fun s e hs ↦ ?_⟩
  obtain ⟨m, hm, hcm⟩ := h.isContainer_of_store? hs
  rw [hn] at hm
  cases hm
  simp [hc] at hcm

theorem not_isModified_modifyNode (d : Document) (id : NodeId) {f : Node → Node}
    (hf : ∀ n, (f n).modified = false) : ¬ (d.modifyNode id f).isModified id := by
  intro hm
  obtain ⟨n, hn, hmod⟩ := isModified_iff.mp hm
  rw [node?_modifyNode, if_pos rfl] at hn
  obtain ⟨m, -, rfl⟩ := Option.map_eq_some_iff.mp hn
  simp [hf] at hmod

theorem Linked.pending_of_isContainer (h : Linked d) (hn : d.node? x = some n)
    (hc : n.isContainer = true) : n.pending = none := by
  by_contra hp
  have hset := (h.node x n hn).settable (Option.isSome_iff_ne_none.mpr hp)
  cases hk : n.kind <;> simp_all [Node.isSettable, Node.isContainer, Kind.isContainer, Kind.value?]

/-- As long as it lives, `id` belongs to `b` or to a block outside the main tree. -/
def OwnedByOrOutside (d : Document) (b id : NodeId) : Prop :=
  ∀ n, d.node? id = some n → ∃ p, n.parent = some p ∧ (p = b ∨ ¬ Below d root p)

namespace OwnedByOrOutside

theorem of_parent (hn : d.node? id = some n) (hp : n.parent = some b) :
    OwnedByOrOutside d b id := by
  intro m hm
  rw [hn] at hm
  cases hm
  exact ⟨b, hp, .inl rfl⟩

theorem inherits (h : OwnedByOrOutside d b id) (hi : Inherits d d') : OwnedByOrOutside d' b id := by
  intro n' hn'
  obtain ⟨n, hn, hpar⟩ := hi.node id n' hn'
  obtain ⟨p, hp, hor⟩ := h n hn
  exact ⟨p, hpar.trans hp, hor.imp_right fun hnot hb ↦ hnot (hi.below hb)⟩

theorem not_mem_overlays (h : OwnedByOrOutside d b id) (hc : OverlaysApart d)
    (hn : d.node? id = some n) : id ∉ d.overlays := by
  intro ho
  obtain ⟨p, hp, -⟩ := h n hn
  simp [((hc id ho).2.2 n hn).1] at hp

theorem parent_of_below (h : OwnedByOrOutside d b id) (hl : Linked d) (hn : d.node? id = some n)
    (hid : Below d root id) : n.parent = some b ∧ Below d root b := by
  obtain ⟨p, hp, hor⟩ := h n hn
  have hbelow := (hid.eq_or_parent hn hp).resolve_left (hl.ne_root_of_parent hn hp)
  obtain rfl := hor.resolve_right fun hnot ↦ hnot hbelow
  exact ⟨hp, hbelow⟩

end OwnedByOrOutside

namespace Traced

theorem near (h : Traced K d) (hs : d.store? b = some s) (hid : id ∈ s.nodes) :
    OwnedByOrOutside d b id := by
  intro n hn
  rcases ((h.linked.store b s hs).links id hid).2 n hn with hp | hh
  · exact ⟨b, hp, .inl rfl⟩
  · obtain ⟨p, hp, hnot⟩ := h.lent id n hn (List.ne_nil_of_mem hh)
    exact ⟨p, hp, .inr hnot⟩

theorem lose (h : Traced K d) (hc : OnlyUnstages C d d')
    (hh : ListsOwned d.OutsideMain d.overlays (fun _ ↦ False) d')
    (hkin : ∀ x n p, d'.node? x = some n → n.parent = some p → d'.store? p = none → K x)
    (hn : ∀ x n', d'.node? x = some n' → d.node? x = some n')
    (he : ∀ b s' e, d'.store? b = some s' → e ∈ s'.entries → ∃ s, d.store? b = some s ∧
      e ∈ s.entries) : Traced K d' := by
  refine h.onlyUnstages hc hh hkin (fun b s' e _ hs' he' _ ↦ he b s' e hs' he')
    fun x hm hlive hm' ↦ absurd ?_ hm'
  obtain ⟨n', hn'⟩ := isLive_iff.mp hlive
  obtain ⟨n, hnode, hmod⟩ := isModified_iff.mp hm
  rw [hn x n' hn'] at hnode
  cases hnode
  exact isModified_iff.mpr ⟨n', hn', hmod⟩

theorem kin_modifyStore (h : Traced K d) (b : NodeId) (f : Store → Store) :
    ∀ x n p, (d.modifyStore b f).node? x = some n → n.parent = some p →
      (d.modifyStore b f).store? p = none → K x := by
  intro x n p hn hp hs
  refine h.kin x n p hn hp ?_
  rw [store?_modifyStore] at hs
  split at hs
  · exact Option.map_eq_none_iff.mp hs
  · exact hs

theorem purge (h : Traced K d) (hid : ∀ n, d.node? id = some n → n.parent ≠ some b) :
    Traced K (d.purge b id) :=
  h.lose (C := fun _ _ ↦ True) (.purge d b id) (h.listsOwned.purge hid) (h.kin_modifyStore b _)
    (fun _ _ hn ↦ hn) fun _ _ _ hs he ↦ mem_of_mem_purge hs he

theorem kin_drop (h : Traced K d) (hid : d.isLive id)
    (hn : ((d.purge b id).release id).node? x = some n) (hp : n.parent = some p)
    (hs : ((d.purge b id).release id).store? p = none) : K x := by
  have hl := h.linked.purge b id
  obtain ⟨hx, hn⟩ := node?_of_foldl_evict hn
  have hstore : (d.purge b id).store? p = none := by
    by_contra hne
    obtain ⟨s, hs₁⟩ := Option.ne_none_iff_exists'.mp hne
    have hpl : p ∈ (d.purge b id).ownedSubtree id := by
      by_contra hpl
      obtain ⟨s', hs', -⟩ := mem_store?_foldl_evict hs₁ hpl hl.distinct
      rw [Document.release, hs'] at hs
      cases hs
    have hne' : x ≠ id := by
      rintro rfl
      exact hx (self_mem_ownedSubtree hid)
    have hmem := ((h.listsOwned.unlist b id).listed x n p s hn hp hs₁).resolve_left hne'
    exact hx (ownedSubtree_child hl.older hpl (mem_ownedChildren.mpr ⟨⟨s, hs₁, hmem⟩, n, hn, hp⟩))
  rw [Document.purge, store?_modifyStore] at hstore
  refine h.kin x n p hn hp ?_
  split at hstore
  · exact Option.map_eq_none_iff.mp hstore
  · exact hstore

theorem drop (h : Traced K d) (hn : d.node? id = some n) (hid : OwnedByOrOutside d b id) :
    Traced K ((d.purge b id).release id) := by
  obtain ⟨p, hp, hor⟩ := hid n hn
  refine h.lose (C := fun _ _ ↦ True) (.drop h.linked b id)
    (h.listsOwned.drop (h.linked.ne_root_of_parent hn hp) fun m q hm hq ↦ ?_)
    (fun _ _ _ hx hp hs ↦ h.kin_drop (isLive_iff.mpr ⟨n, hn⟩) hx hp hs)
    (fun _ _ ↦ node?_of_release) fun y s' e hs' he ↦ ?_
  · rw [hn] at hm
    cases hm
    rw [hp] at hq
    cases hq
    exact hor.imp_right fun hnot ↦ ⟨Nat.lt_trans (h.linked.older id n p hn hp) (lt_nextId hn), hnot⟩
  · obtain ⟨s, hs, -, hsub⟩ := store?_foldl_evict_sublist (h.linked.purge b id).distinct hs'
    exact mem_of_mem_purge hs (hsub.subset he)

theorem modifyStore (h : Traced K d) {f : Store → Store} (hl : Linked (d.modifyStore b f))
    (hc : OnlyUnstages C d (d.modifyStore b f))
    (hf : ∀ s, d.store? b = some s → (f s).nodes = s.nodes ∧
      (Below d root b → ∀ e ∈ (f s).entries, e.Was .toBeAdded → e ∈ s.entries)) :
    Traced K (d.modifyStore b f) := by
  refine h.onlyUnstages hc (h.listsOwned.rearrange hl fun s hs x ↦ by rw [(hf s hs).1])
    (h.kin_modifyStore b f) (fun c s' e hb hs' he hw ↦ ?_) fun x hm _ hm' ↦ absurd hm hm'
  rcases store?_of_modifyStore hs' with ⟨rfl, s, hs, rfl⟩ | ⟨-, hs'⟩
  · exact ⟨s, hs, (hf s hs).2 (hc.below hb) e he hw⟩
  · exact ⟨s', hs', he⟩

theorem modifyEntry (h : Traced K d) {f : Entry → Entry}
    (hc : OnlyUnstages C d (d.modifyEntry b id f))
    (hf : ∀ e, (f e).node = e.node ∧ (f e).restore = e.restore ∧ (f e).state = .existing) :
    Traced K (d.modifyEntry b id f) := by
  refine h.modifyStore (h.linked.modifyEntry (fun e ↦ (hf e).1) (fun e ↦ (hf e).2.1) b id) hc
    fun s hs ↦ ⟨Store.nodes_modifyEntry fun e ↦ (hf e).1, fun _ e' he' hw ↦ ?_⟩
  rcases Store.mem_modifyFirst he' with he' | ⟨e, -, -, rfl⟩
  · exact he'
  · simp [Entry.Was, (hf e).2.2] at hw

theorem modifyNode (h : Traced K d) {f : Node → Node} (hl : Linked (d.modifyNode id f))
    (hc : OnlyUnstages C d (d.modifyNode id f)) (hf : ∀ n, (f n).parent = n.parent)
    (hsettled : ∀ n, d.node? id = some n → n.modified = true → (f n).modified = false →
      Below d root id → (d.modifyNode id f).Settled id)
    (hquiet : id ∈ d.overlays → ∀ x, Nested d id x → d.Clear x) : Traced K (d.modifyNode id f) := by
  have hh := h.listsOwned.modifyNode hl hf
  refine h.onlyUnstages hc hh (fun x n' p hn' hp hs ↦ ?_) (fun b s' e' _ hs' he' _ ↦ ⟨s', hs', he'⟩)
    fun x hm _ hm' ↦ ?_
  · obtain ⟨n, hn, hpar⟩ := hc.node x n' hn'
    exact h.kin x n p hn (hpar ▸ hp) hs
  obtain ⟨n, hn, hmod⟩ := isModified_iff.mp hm
  by_cases hx : id = x
  · subst hx
    have hclear : (f n).modified = false := Bool.eq_false_iff.mpr fun hmf ↦ hm' <|
      isModified_iff.mpr ⟨f n, by rw [node?_modifyNode, if_pos rfl, hn]; rfl, hmf⟩
    exact ⟨fun hb ↦ hsettled n hn hmod hclear (hc.below hb), fun ho y hy ↦
      (hquiet ho y (hy.onlyUnstages hc hh (lt_nextId hn))).onlyUnstages hc⟩
  · refine absurd (isModified_iff.mpr ⟨n, ?_, hmod⟩) hm'
    rw [node?_modifyNode, if_neg hx, hn]

theorem markWritten (h : Traced K d) (hs : Below d root id → d.Settled id)
    (hquiet : id ∈ d.overlays → ∀ x, Nested d id x → d.Clear x) :
    Traced K (d.modifyNode id Node.markWritten) :=
  h.modifyNode (C := fun _ _ ↦ True) (h.linked.markWritten id) (.markWritten d id) (fun _ ↦ rfl)
    (fun _ _ _ _ hb ↦ (hs hb).onlyUnstages (C := fun _ _ ↦ True) (.markWritten d id)) hquiet

theorem commit (h : Traced K d) (hn : d.node? id = some n) (hc : n.isContainer = false)
    (ho : id ∉ d.overlays) : Traced K (d.modifyNode id (·.commit.markWritten)) := by
  obtain ⟨-, -, hcn, hpending⟩ := n.commit_fields
  refine h.modifyNode (C := fun _ _ ↦ True) (h.linked.commit id) (.commit d id)
    (fun n ↦ n.commit_fields.1) (fun m hm _ _ _ ↦ ?_) fun ho' ↦ absurd ho' ho
  refine settled_of_leaf (h.linked.commit id) (n := n.commit.markWritten) ?_ hpending ?_
  · rw [node?_modifyNode, if_pos rfl, hn]
    rfl
  · exact hcn.trans hc

theorem createdAt (h : Traced K d) (ho : id ∉ d.overlays) (range : SourceRange) :
    Traced K (d.modifyNode id (·.createdAt range)) := by
  have hplace : ∀ n : Node, (n.createdAt range).parent = n.parent ∧
      (n.createdAt range).isContainer = n.isContainer := by
    intro n
    have hplace := place_createdAt range n
    simp only [place, post, Prod.mk.injEq] at hplace
    exact hplace.1
  refine h.modifyNode (C := fun _ _ ↦ True) (h.linked.createdAt id range) (.createdAt d id range)
    (fun n ↦ (hplace n).1) (fun n hn hm hm' _ ↦ ?_) fun ho' ↦ absurd ho' ho
  -- only a leaf loses its mark
  have hc : n.isContainer = false := by
    rw [Node.modified_createdAt, hm] at hm'
    simpa using hm'
  have hc' : ({ n with source := some range } : Node).isContainer = false := hc
  refine settled_of_leaf (h.linked.createdAt id range) (n := n.createdAt range) ?_ ?_
    ((hplace n).2.trans hc)
  · rw [node?_modifyNode, if_pos rfl, hn]
    rfl
  · simp only [Node.createdAt, hc', Bool.false_eq_true, if_false]
    exact (Node.commit_fields _).2.2.2

theorem settle (h : Traced K d)
    (hadd : Below d root b → ∀ s e, d.store? b = some s → e ∈ s.entries → e.state ≠ .toBeAdded) :
    Traced K (d.modifyStore b Store.settle) := by
  refine h.modifyStore (C := fun _ _ ↦ True) (h.linked.settle b) (.settle d b)
    fun s hs ↦ ⟨s.nodes_settle, fun hb e' he' hw ↦ ?_⟩
  rw [Store.settle_entries] at he'
  obtain ⟨e, he, rfl⟩ := List.mem_map.mp he'
  unfold Store.settled at hw ⊢
  split at hw
  · next hr => rwa [if_pos hr]
  · next hr =>
    rcases hw with hw | ⟨hw, -⟩
    · exact absurd hw (hadd hb s e hs he)
    · exact absurd hw hr

theorem settleAll (h : Traced K d)
    (hrem : ∀ s e, d.store? b = some s → e ∈ s.entries → e.state ≠ .toBeRemoved) :
    Traced K (d.modifyStore b Store.settleAll) := by
  refine h.modifyStore (C := fun _ _ ↦ True) (h.linked.settleAll b)
    (.settleAll (fun _ ↦ trivial) hrem) fun s hs ↦ ⟨s.nodes_settleAll, fun _ e' he' hw ↦ ?_⟩
  rw [Store.settleAll_entries] at he'
  obtain ⟨e, he, rfl⟩ := List.mem_map.mp he'
  have hne := hrem s e hs he
  simp only [Entry.Was, Store.settledAll] at hw
  split at hw <;> simp_all

theorem delete (h : Traced K r.document) (b id : NodeId) : Traced K (r.delete w b id).document := by
  have hstep := Run.deletion w b id r
  generalize r.delete w b id = r' at hstep
  cases hstep with
  | foreign hid => exact h.purge hid
  | unwritten hn hp => exact h.drop hn (.of_parent hn hp)
  | refused => exact h
  | deleted hn hp => exact h.drop hn (.of_parent hn hp)

theorem create (h : Traced K r.document) (hid : OwnedByOrOutside r.document b id)
    (hends : EndsIn b .toBeAdded r.document id) : Traced K (r.create w b id).document := by
  have hstep := Run.creation w b id r
  generalize r.create w b id = r' at hstep
  cases hstep with
  | dead => exact h
  | refused hn => exact h.drop hn hid
  | created range hn =>
    have hends' : EndsIn b .toBeAdded (r.document.modifyNode id (·.createdAt range)) id := hends
    exact (h.createdAt (hid.not_mem_overlays h.overlaysApart hn) range).modifyEntry
      (C := fun _ _ ↦ True)
      (.entryCreatedAt hends' trivial range) fun e ↦ ⟨rfl, rfl, rfl⟩

theorem relocate (h : Traced K r.document) (hends : EndsIn b .moved r.document id) :
    Traced K (r.relocate w b id).document := by
  have hstep := Run.relocating w b id r
  generalize r.relocate w b id = r' at hstep
  cases hstep with
  | dead => exact h
  | refused => exact h
  | relocated =>
    exact h.modifyEntry (C := fun _ _ ↦ True) (.relocated hends) fun e ↦ ⟨rfl, rfl, rfl⟩

theorem flush {inner : NodeId → Run σ → Run σ} (h : Traced K r.document)
    (hid : OwnedByOrOutside r.document b id)
    (hin : ∀ n, r.document.node? id = some n → n.isContainer = true →
      Traced K (inner id { r with clean := true }).document ∧
        Inherits r.document (inner id { r with clean := true }).document ∧
        ((inner id { r with clean := true }).clean = true →
          Below (inner id { r with clean := true }).document root id →
          (inner id { r with clean := true }).document.Settled id)) :
    Traced K (r.flush w inner b id).document := by
  have hstep := Run.flushing w inner b id r
  generalize r.flush w inner b id = r' at hstep
  cases hstep with
  | idle => exact h
  | inside hn _ hc => exact (hin _ hn hc).1
  | settled hn _ hc hclean =>
    obtain ⟨hafter, hi, hsettled⟩ := hin _ hn hc
    refine hafter.markWritten (hsettled hclean) fun ho ↦ ?_
    exact absurd (hi.overlays ▸ ho) (hid.not_mem_overlays h.overlaysApart hn)
  | refused => exact h
  | flushed hn _ hc => exact h.commit hn hc (hid.not_mem_overlays h.overlaysApart hn)

end Traced

def Lacks (b : NodeId) (state : EntryState) (d : Document) : Prop :=
  ∀ s e, d.store? b = some s → e ∈ s.entries → e.state ≠ state

theorem Lacks.onlyUnstages (h : Lacks b state d) (hc : OnlyUnstages C d d')
    (hs : state ≠ .existing) : Lacks b state d' := by
  intro s' e' hs' he' hst
  obtain ⟨s, e, hs₀, he, hunstages⟩ := hc.entry b s' e' hs' he'
  exact h s e hs₀ he ((hunstages.eq_of_ne (hst ▸ hs)).symm.trans hst)

end Document

namespace Run

open Document

variable {σ : Type} {w : Writer σ} {b id : NodeId} {r : Run σ}

theorem unlisted_delete (h : Linked r.document) (hclean : (r.delete w b id).clean = true) :
    Unlisted b id (r.delete w b id).document := by
  have hstep := deletion w b id r
  have hdrop : Unlisted b id ((r.document.purge b id).release id) :=
    (unlisted_purge h b id).onlyUnstages
      (OnlyUnstages.release (C := fun _ _ ↦ True) (h.purge b id) id)
  generalize r.delete w b id = r' at hstep hclean
  cases hstep with
  | foreign => exact unlisted_purge h b id
  | unwritten => exact hdrop
  | refused => simp [unclean] at hclean
  | deleted => exact hdrop

theorem lacks_deletions (h : Linked r.document) (hclean : (r.deletions w b).clean = true) :
    Lacks b .toBeRemoved (r.deletions w b).document := by
  obtain ⟨-, hunstages, hturn⟩ := Continues.deletions (w := w) h b
  intro s e hs he hst
  obtain ⟨s₀, e₀, hs₀, he₀, hc⟩ := hunstages.onlyUnstages.entry b s e hs he
  have hst₀ : e₀.state = .toBeRemoved := (hc.eq_of_ne (by simp [hst])).symm.trans hst
  obtain ⟨r₁, h₁, -, hrest⟩ := hturn e.node
    (mem_inState.mpr ⟨s₀, hs₀, e₀, he₀, hst₀, hc.node.symm⟩)
  have hun := (unlisted_delete h₁ (hrest.clean hclean)).onlyUnstages hrest.onlyUnstages
  exact hun s hs (Store.mem_nodes_of_mem he)

theorem lacks_creations (h : Linked r.document)
    (hlive : ∀ s, (r.creations w b).document.store? b = some s →
      ∀ x ∈ s.nodes, (r.creations w b).document.isLive x) :
    Lacks b .toBeAdded (r.creations w b).document := by
  intro s e hs he hst
  obtain ⟨n, hn⟩ := isLive_iff.mp (hlive s hs e.node (Store.mem_nodes_of_mem he))
  rw [added_creations h b hs he hst] at hn
  cases hn

theorem refused_of_moved (h : Linked r.document) {s : Store} {e : Entry}
    (hs : (r.relocations w b).document.store? b = some s) (he : e ∈ s.entries)
    (hlive : (r.relocations w b).document.isLive e.node) (hst : e.state = .moved) :
    (r.relocations w b).clean = false ∧
      ∃ f ∈ (r.relocations w b).report.failures, f.step = .relocate ∧ f.node = e.node := by
  obtain ⟨-, hunstages, hturn⟩ := Continues.relocations (w := w) h b
  obtain ⟨s₀, e₀, hs₀, he₀, hc⟩ := hunstages.onlyUnstages.entry b s e hs he
  have hst₀ : e₀.state = .moved := (hc.eq_of_ne (by simp [hst])).symm.trans hst
  obtain ⟨r₁, h₁, -, hrest⟩ := hturn e.node
    (mem_inState.mpr ⟨s₀, hs₀, e₀, he₀, hst₀, hc.node.symm⟩)
  obtain ⟨s₁, e₁, hs₁, he₁, hc₁⟩ := hrest.onlyUnstages.entry b s e hs he
  have hst₁ : e₁.state = .moved := (hc₁.eq_of_ne (by simp [hst])).symm.trans hst
  obtain ⟨n, hn⟩ := isLive_iff.mp hlive
  obtain ⟨n₁, hn₁, -⟩ := hrest.onlyUnstages.node e.node n hn
  have hstep := relocating w b e.node r₁
  generalize r₁.relocate w b e.node = r₂ at hstep hs₁ hn₁ hrest
  cases hstep with
  | dead hdead => simp [hdead] at hn₁
  | refused =>
    refine ⟨Bool.eq_false_iff.mpr fun hclean ↦ ?_, _,
      hrest.failures (List.mem_append_right _ List.mem_cons_self), rfl, rfl⟩
    simpa [unclean] using hrest.clean hclean
  | relocated =>
    rw [pass, Document.modifyEntry, store?_modifyStore, if_pos rfl] at hs₁
    obtain ⟨s₂, hs₂, rfl⟩ := Option.map_eq_some_iff.mp hs₁
    obtain ⟨e₂, -, -, rfl⟩ := Store.mem_modifyEntry_self (h₁.store b s₂ hs₂).nodup he₁ hc₁.node.symm
    simp [Entry.relocated] at hst₁

theorem lacks_relocations (h : Linked r.document)
    (hlive : ∀ s, (r.relocations w b).document.store? b = some s →
      ∀ x ∈ s.nodes, (r.relocations w b).document.isLive x)
    (hclean : (r.relocations w b).clean = true) : Lacks b .moved (r.relocations w b).document := by
  intro s e hs he hst
  have hrefused := refused_of_moved h hs he (hlive s hs _ (Store.mem_nodes_of_mem he)) hst
  simp [hclean] at hrefused

theorem not_isModified_flush {inner : NodeId → Run σ → Run σ} (b : NodeId)
    (hclean : (r.flush w inner b id).clean = true) :
    ¬ (r.flush w inner b id).document.isModified id := by
  have hstep := flushing w inner b id r
  generalize r.flush w inner b id = r' at hstep hclean
  cases hstep with
  | idle hidle =>
    intro hm
    obtain ⟨n, hn, hmod⟩ := isModified_iff.mp hm
    simp [hidle n hn] at hmod
  | inside _ _ _ hunclean => simp [hunclean] at hclean
  | settled => exact not_isModified_modifyNode _ id fun _ ↦ rfl
  | refused => simp [unclean] at hclean
  | flushed => exact not_isModified_modifyNode _ id fun _ ↦ rfl

end Run

end BuildScript
