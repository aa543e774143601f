import BuildScript.Proofs.Changes.Run

namespace BuildScript

/-- What calls that are all accepted make of an entry. One that is not staged stays as it is; a
staged one keeps its node and its state, unless it was to be added and now exists. -/
def Entry.AllAccepted (e e' : Entry) : Prop :=
  e' = e ∨ e.staged = true ∧ e'.node = e.node ∧ e'.restore = none ∧
    (e'.state = e.state ∨ e.state = .toBeAdded ∧ e'.state = .existing)

namespace Entry.AllAccepted

variable {e e' : Entry}

theorem refl (e : Entry) : e.AllAccepted e := .inl rfl

theorem node (h : e.AllAccepted e') : e'.node = e.node := by
  rcases h with rfl | ⟨-, hn, -⟩
  · rfl
  · exact hn

theorem eq_of_unstaged (h : e.AllAccepted e') (hs : e.staged = false) : e' = e :=
  h.resolve_right fun h ↦ by simp [hs] at h

theorem eq_of_ne (h : e.AllAccepted e') (hs : e'.state ≠ .existing) : e'.state = e.state := by
  rcases h with rfl | ⟨-, -, -, hst | ⟨-, hst⟩⟩
  · rfl
  · exact hst
  · exact absurd hst hs

theorem isOwnVisible (h : e.AllAccepted e') : e'.isOwnVisible = e.isOwnVisible := by
  rcases h with rfl | ⟨-, -, -, hst | ⟨hst, hst'⟩⟩
  · rfl
  · simp only [Entry.isOwnVisible, Entry.isVisible, hst]
  · simp only [Entry.isOwnVisible, Entry.isVisible, hst, hst']
    rfl

theorem restore (h : e.AllAccepted e') (hr : e.restore = none) : e'.restore = none := by
  rcases h with rfl | ⟨-, -, hr', -⟩
  · exact hr
  · exact hr'

theorem settled (h : e.AllAccepted e') (hr : e.state ≠ .toBeRemoved → e.restore = none) :
    e.AllAccepted (Store.settled e') := by
  unfold Store.settled
  split
  · exact h
  · next hst =>
    rcases h with rfl | ⟨hs, hn, -, hst'⟩
    · by_cases hs : e'.staged = true
      · exact .inr ⟨hs, rfl, rfl, .inl rfl⟩
      · refine .inl ?_
        obtain ⟨node, state, existsInSource, staged, restore⟩ := e'
        simp_all
    · exact .inr ⟨hs, hn, rfl, hst'⟩

theorem createdAt (h : e.AllAccepted e') (hst : e.state = .toBeAdded) (hs : e.staged = true)
    (hr : e.restore = none) (range : SourceRange) : e.AllAccepted (e'.createdAt range) :=
  .inr ⟨hs, h.node, h.restore hr, .inr ⟨hst, rfl⟩⟩

end Entry.AllAccepted

section

variable {l l' : List Entry} {e e' : Entry} {id : NodeId}

theorem exists_of_mem_afterAccepted (h : List.Forall₂ Entry.AllAccepted l l') (he : e ∈ l) :
    ∃ e' ∈ l', e.AllAccepted e' := by
  induction h with
  | nil => simp at he
  | cons hr _ ih =>
    rcases List.mem_cons.mp he with rfl | he
    · exact ⟨_, List.mem_cons_self, hr⟩
    · obtain ⟨e', he', hr⟩ := ih he
      exact ⟨e', List.mem_cons_of_mem _ he', hr⟩

theorem exists_of_mem_allAccepted (h : List.Forall₂ Entry.AllAccepted l l') (he' : e' ∈ l') :
    ∃ e ∈ l, e.AllAccepted e' := by
  induction h with
  | nil => simp at he'
  | cons hr _ ih =>
    rcases List.mem_cons.mp he' with rfl | he'
    · exact ⟨_, List.mem_cons_self, hr⟩
    · obtain ⟨e, he, hr⟩ := ih he'
      exact ⟨e, List.mem_cons_of_mem _ he, hr⟩

theorem map_node_allAccepted (h : List.Forall₂ Entry.AllAccepted l l') :
    l'.map (·.node) = l.map (·.node) := by
  induction h with
  | nil => rfl
  | cons hr _ ih => rw [List.map_cons, List.map_cons, hr.node, ih]

theorem eq_map_of_forall₂ {R : Entry → Entry → Prop} {g : Entry → Entry} (h : List.Forall₂ R l l')
    (hg : ∀ e ∈ l, ∀ e' ∈ l', R e e' → e' = g e) : l' = l.map g := by
  induction h with
  | nil => rfl
  | @cons e e' l l' hr _ ih =>
    rw [List.map_cons, hg e List.mem_cons_self e' List.mem_cons_self hr,
      ih fun e he e' he' ↦ hg e (List.mem_cons_of_mem _ he) e' (List.mem_cons_of_mem _ he')]

theorem eq_of_unstaged_allAccepted (h : List.Forall₂ Entry.AllAccepted l l')
    (hs : ∀ e ∈ l, e.staged = false) : l' = l :=
  (eq_map_of_forall₂ h fun e he _ _ hr ↦ hr.eq_of_unstaged (hs e he)).trans (List.map_id l)

theorem allAccepted_modifyFirst {f : Entry → Entry} (h : List.Forall₂ Entry.AllAccepted l l')
    (hf : ∀ e ∈ l, ∀ e', e.AllAccepted e' → e'.node = id → e.AllAccepted (f e')) :
    List.Forall₂ Entry.AllAccepted l (Store.modifyFirst id f l') := by
  induction h with
  | nil => exact .nil
  | @cons e e' l l' hr hrest ih =>
    obtain ⟨hhead, htail⟩ := List.forall_mem_cons.mp hf
    rw [Store.modifyFirst]
    split
    · next hid => exact .cons (hhead e' hr hid) hrest
    · exact .cons hr (ih htail)

theorem allAccepted_map {f : Entry → Entry} (h : List.Forall₂ Entry.AllAccepted l l')
    (hf : ∀ e ∈ l, ∀ e', e.AllAccepted e' → e.AllAccepted (f e')) :
    List.Forall₂ Entry.AllAccepted l (l'.map f) := by
  induction h with
  | nil => exact .nil
  | @cons e e' l l' hr _ ih =>
    obtain ⟨hhead, htail⟩ := List.forall_mem_cons.mp hf
    exact .cons (hhead e' hr) (ih htail)

theorem allAccepted_filter (h : List.Forall₂ Entry.AllAccepted l l') (p : NodeId → Bool) :
    List.Forall₂ Entry.AllAccepted (l.filter (p ·.node)) (l'.filter (p ·.node)) :=
  List.rel_filter (fun _ _ hr ↦ iff_of_eq (congrArg (p · = true) hr.node.symm)) h

end

theorem Store.without_purge {s : Store} {l : List NodeId} {x : NodeId} (hs : s.nodes.Nodup)
    (hx : x ∈ l) : (s.purge x).without l = s.without l := by
  simp only [without, purge, eraseP_eq_filter hs, List.filter_filter]
  congr 1
  refine List.filter_congr fun e _ ↦ ?_
  by_cases he : e.node = x
  · simp [he, hx]
  · simp [he]

namespace Document

/-- The part of a node that no write touches. -/
def wired (n : Node) : ((Option NodeId × Bool) × List NodeId) × List Dependency :=
  (place n, n.edges)

theorem wired_commit (n : Node) : wired n.commit.markWritten = wired n := by
  refine Prod.ext (place_commit n) ?_
  simp only [wired, Node.markWritten, Node.commit]
  split <;> rfl

theorem wired_createdAt (range : SourceRange) (n : Node) : wired (n.createdAt range) = wired n := by
  simp only [Node.createdAt]
  split
  · rfl
  · exact wired_commit { n with source := some range }

variable {gone : List NodeId} {d d' : Document} {b c id old x : NodeId} {n : Node} {s s' : Store}
  {e e' : Entry} {σ : Type} {w : Writer σ} {r : Run σ} {fuel : Nat}

/-- Only new declarations are staged, apart from one removal: that of `old` from the block `b` that
owns it. -/
structure StagesOneRemoval (b old : NodeId) (d : Document) : Prop where
  linked : Linked d
  owned : d.isOwnedBy old b
  moved : ∀ x s e, d.store? x = some s → e ∈ s.entries → e.state ≠ .moved
  added : ∀ x s e, d.store? x = some s → e ∈ s.entries → e.state = .toBeAdded → e.staged = true
  removed : ∀ x s e, d.store? x = some s → e ∈ s.entries → e.state = .toBeRemoved →
    x = b ∧ e.node = old
  restore : ∀ x s e, d.store? x = some s → e ∈ s.entries → e.state ≠ .toBeRemoved →
    e.restore = none

/-- In the middle of a run that began with `d` the nodes in `gone` have been released with their
entries. All others stay where they are, and so do their entries, for some of which calls have been
accepted. -/
structure AllAccepted (gone : List NodeId) (d d' : Document) : Prop where
  linked : Linked d'
  nextId : d'.nextId = d.nextId
  node : ∀ x, (d'.node? x).map wired = if x ∈ gone then none else (d.node? x).map wired
  store : ∀ x s', d'.store? x = some s' → ∃ s, d.store? x = some s ∧
    List.Forall₂ Entry.AllAccepted (s.without gone).entries s'.entries

/-- What a node owns below it goes by what the nodes from there on list and own. -/
theorem subtree_congr (ho : d.Older)
    (hc : ∀ y, x ≤ y → y < d.nextId → d'.ownedChildren y = d.ownedChildren y) (hx : x < d.nextId)
    (fuel : Nat) : d'.subtree fuel x = d.subtree fuel x := by
  suffices hsub : ∀ y, x ≤ y → y < d.nextId → d'.subtree fuel y = d.subtree fuel y from
    hsub x (Nat.le_refl x) hx
  induction fuel with
  | zero => exact fun _ _ _ ↦ rfl
  | succ fuel ih =>
    intro y hy hlt
    rw [subtree, subtree, hc y hy hlt]
    refine congrArg (y :: ·) (List.flatMap_congr fun z hz ↦ ?_)
    obtain ⟨-, m, hm, hp⟩ := mem_ownedChildren.mp hz
    exact ih z (Nat.le_trans hy (Nat.le_of_lt (ho z m y hm hp))) (lt_nextId hm)

/-- When a node is purged from its block and released, every other block loses its entries for what
has gone. -/
theorem store?_foldl_evict_purge (h : Linked d) (hn : d.node? old = some n)
    (hp : n.parent = some b) (x : NodeId) (hx : x ∉ (d.purge b old).ownedSubtree old) :
    (((d.purge b old).ownedSubtree old).foldl evict (d.purge b old)).store? x =
      (d.store? x).map (·.without ((d.purge b old).ownedSubtree old)) := by
  have hpurged := h.purge b old
  have hdet := Detached.purge h hn hp
  have hlive : (d.purge b old).isLive old := isLive_iff.mpr ⟨n, hn⟩
  have hold := self_mem_ownedSubtree hlive
  have hall := fun y (hy : y ∈ (d.purge b old).ownedSubtree old) ↦
    isLive_iff.mp ((ownedSubtree_below hy).isLive hlive)
  generalize (d.purge b old).ownedSubtree old = l at hx hdet hold hall ⊢
  have hstays : ((d.purge b old).store? x).map (·.without l) = (d.store? x).map (·.without l) := by
    rw [Document.purge, store?_modifyStore]
    split
    · next hb =>
      subst hb
      cases hs : d.store? b with
      | none => rfl
      | some s => exact congrArg some (Store.without_purge (h.store b s hs).nodup hold)
    · rfl
  rw [← hstays]
  refine hpurged.store?_evicted hx fun s hs y hy hyl ↦ ?_
  obtain ⟨m, hm⟩ := hall y hyl
  exact ⟨m, hm, fun hpar ↦ hdet.cut y hyl m x s hm hpar hx hs hy⟩

namespace AllAccepted

theorem refl (h : Linked d) : AllAccepted [] d d where
  linked := h
  nextId := rfl
  node _ := by simp
  store x s hs := ⟨s, hs, by
    simpa [Store.without] using List.forall₂_same.mpr fun e _ ↦ Entry.AllAccepted.refl e⟩

theorem exists_node (h : AllAccepted gone d d') (hx : x ∉ gone) (hn : d.node? x = some n) :
    ∃ n', d'.node? x = some n' ∧ wired n' = wired n := by
  have hw := h.node x
  rw [if_neg hx, hn] at hw
  exact Option.map_eq_some_iff.mp hw

theorem node?_eq_none (h : AllAccepted gone d d') (hx : x ∈ gone) : d'.node? x = none := by
  have hw := h.node x
  rw [if_pos hx] at hw
  exact Option.map_eq_none_iff.mp hw

theorem entry (h : AllAccepted gone d d') (hs' : d'.store? x = some s') (he' : e' ∈ s'.entries) :
    ∃ s e, d.store? x = some s ∧ e ∈ s.entries ∧ e.node ∉ gone ∧ e.AllAccepted e' := by
  obtain ⟨s, hs, hall⟩ := h.store x s' hs'
  obtain ⟨e, he, hr⟩ := exists_of_mem_allAccepted hall he'
  obtain ⟨hmem, hgone⟩ := Store.mem_without.mp he
  exact ⟨s, e, hs, hmem, hgone, hr⟩

theorem exists_store (h : AllAccepted gone d d') (hl : Linked d) (hx : x ∉ gone)
    (hs : d.store? x = some s) : ∃ s', d'.store? x = some s' ∧
      List.Forall₂ Entry.AllAccepted (s.without gone).entries s'.entries := by
  obtain ⟨n, hn, hc⟩ := hl.isContainer_of_store? hs
  obtain ⟨n', hn', hw⟩ := h.exists_node hx hn
  have hc' : n'.isContainer = true := (congrArg (·.1.1.2) hw).trans hc
  have hsome := h.linked.keyed x
  rw [hn', Option.any_some, hc'] at hsome
  obtain ⟨s', hs'⟩ := Option.isSome_iff_exists.mp hsome
  obtain ⟨s₀, hs₀, hall⟩ := h.store x s' hs'
  rw [hs] at hs₀
  cases hs₀
  exact ⟨s', hs', hall⟩

theorem modifyNode (h : AllAccepted gone d d') {f : Node → Node} (hl : Linked (d'.modifyNode id f))
    (hf : ∀ n, wired (f n) = wired n) : AllAccepted gone d (d'.modifyNode id f) where
  linked := hl
  nextId := (nextId_modifyNode d' id f).trans h.nextId
  node x := by
    rw [← h.node x, node?_modifyNode]
    split
    · simp only [Option.map_map, Function.comp_def, hf]
    · rfl
  store := h.store

theorem modifyStore (h : AllAccepted gone d d') {f : Store → Store}
    (hl : Linked (d'.modifyStore c f))
    (hf : ∀ s s', d.store? c = some s → d'.store? c = some s' →
      List.Forall₂ Entry.AllAccepted (s.without gone).entries s'.entries →
      List.Forall₂ Entry.AllAccepted (s.without gone).entries (f s').entries) :
    AllAccepted gone d (d'.modifyStore c f) where
  linked := hl
  nextId := h.nextId
  node := h.node
  store x s'' hs'' := by
    rcases store?_of_modifyStore hs'' with ⟨rfl, s', hs', rfl⟩ | ⟨-, hs''⟩
    · obtain ⟨s, hs, hall⟩ := h.store c s' hs'
      exact ⟨s, hs, hf s s' hs hs' hall⟩
    · exact h.store x s'' hs''

theorem settle (h : AllAccepted gone d d') (hp : StagesOneRemoval b old d) (c : NodeId) :
    AllAccepted gone d (d'.modifyStore c Store.settle) := by
  refine h.modifyStore (h.linked.settle c) fun s s' hs _ hall ↦ ?_
  rw [Store.settle_entries]
  exact allAccepted_map hall fun e he _ hr ↦
    hr.settled (hp.restore c s e hs (Store.mem_without.mp he).1)

theorem created (h : AllAccepted gone d d') (hp : StagesOneRemoval b old d)
    (hid : EndsIn c .toBeAdded d id) (range : SourceRange) :
    AllAccepted gone d
      ((d'.modifyNode id (·.createdAt range)).modifyEntry c id (·.createdAt range)) := by
  have hnode := h.modifyNode (h.linked.createdAt id range) (wired_createdAt range)
  refine hnode.modifyStore (hnode.linked.modifyEntry (f := (·.createdAt range)) (fun _ ↦ rfl)
    (fun _ ↦ rfl) c id) fun s s' hs _ hall ↦ allAccepted_modifyFirst hall fun e he e' hr hn ↦ ?_
  obtain ⟨hmem, -⟩ := Store.mem_without.mp he
  have hst := hid s hs e hmem (hr.node.symm.trans hn)
  exact hr.createdAt hst (hp.added c s e hs hmem hst)
    (hp.restore c s e hs hmem (by simp [hst])) range

theorem entries (h : AllAccepted gone d d') (hl : Linked d) (hx : x ∉ gone) :
    List.Forall₂ Entry.AllAccepted ((d.entries x).filter (!gone.contains ·.node))
      (d'.entries x) := by
  cases hs : d.store? x with
  | none =>
    cases hs' : d'.store? x with
    | none =>
      simp only [Document.entries, hs, hs', List.filter_nil]
      exact .nil
    | some s' =>
      obtain ⟨s, hs₀, -⟩ := h.store x s' hs'
      simp [hs] at hs₀
  | some s =>
    obtain ⟨s', hs', hall⟩ := h.exists_store hl hx hs
    rw [entries_eq hs, entries_eq hs']
    exact hall

theorem entries_whole (h : AllAccepted gone d d') (hl : Linked d) (hx : x ∉ gone)
    (hg : ∀ e ∈ d.entries x, e.node ∉ gone) :
    List.Forall₂ Entry.AllAccepted (d.entries x) (d'.entries x) := by
  have hall := h.entries hl hx
  rwa [List.filter_eq_self.mpr fun e he ↦ by simpa using hg e he] at hall

theorem isOwnedBy_eq (h : AllAccepted [] d d') (x y : NodeId) :
    d'.isOwnedBy x y = d.isOwnedBy x y := by
  have hw := congrArg (Option.map (·.1.1.1)) (h.node x)
  have hp : (d'.node? x).map Node.parent = (d.node? x).map Node.parent := by
    simpa [Function.comp_def, wired, place, post] using hw
  simp only [isOwnedBy, ← Option.any_map (f := Node.parent) (p := (· == some y)), hp]

/-- The purge of the removed entry leaves the subtree below it as it was at the beginning. -/
theorem ownedSubtree_purge (h : AllAccepted [] d d') (hp : StagesOneRemoval b old d) :
    (d'.purge b old).ownedSubtree old = d.ownedSubtree old := by
  obtain ⟨n, hn, hpar⟩ := isOwnedBy_iff.mp hp.owned
  obtain ⟨n', hn', -⟩ := h.exists_node (by simp) hn
  have hlive : (d'.purge b old).isLive old := isLive_iff.mpr ⟨n', hn'⟩
  have hsize : (d'.purge b old).nodes.size = d.nodes.size := h.nextId
  rw [ownedSubtree, ownedSubtree, if_pos hlive, if_pos (isLive_iff.mpr ⟨n, hn⟩), hsize]
  refine subtree_congr hp.linked.older (fun x hx _ ↦ ?_) (lt_nextId hn) _
  have hne : b ≠ x := Nat.ne_of_lt (Nat.lt_of_lt_of_le (hp.linked.older old n b hn hpar) hx)
  have hentries : (d'.purge b old).entries x = d'.entries x := by
    simp only [Document.entries, Document.purge, store?_modifyStore, if_neg hne]
  have hall := h.entries_whole hp.linked (x := x) (by simp) (by simp)
  rw [ownedChildren, hentries, map_node_allAccepted hall, ownedChildren]
  exact List.filter_congr fun y _ ↦ h.isOwnedBy_eq y x

theorem dropped (h : AllAccepted [] d d') (hp : StagesOneRemoval b old d) :
    AllAccepted (d.ownedSubtree old) d ((d'.purge b old).release old) := by
  obtain ⟨n₀, hn₀, hpar₀⟩ := isOwnedBy_iff.mp hp.owned
  obtain ⟨n, hn, hw⟩ := h.exists_node (by simp) hn₀
  have hpar : n.parent = some b := (congrArg (·.1.1.1) hw).trans hpar₀
  have hpurged := h.linked.purge b old
  have hl : Linked ((d'.purge b old).release old) :=
    h.linked.purge_release (h.linked.ne_root_of_parent hn hpar)
  have hnode := node?_foldl_evict (d.ownedSubtree old) (d'.purge b old)
  have hstore := store?_foldl_evict_purge h.linked hn hpar
  rw [h.ownedSubtree_purge hp] at hstore
  rw [release, h.ownedSubtree_purge hp] at hl ⊢
  refine ⟨hl, (foldl_evict_fields _ _).1.trans h.nextId, fun x ↦ ?_, fun x s'' hs'' ↦ ?_⟩
  · have hwx := h.node x
    rw [if_neg (by simp)] at hwx
    rw [hnode]
    split
    · rfl
    · exact hwx
  · have hx : x ∉ d.ownedSubtree old := fun hx ↦ by
      rw [hl.store?_of_node?_eq_none (by rw [hnode, if_pos hx])] at hs''
      simp at hs''
    rw [hstore x hx] at hs''
    obtain ⟨s', hs', rfl⟩ := Option.map_eq_some_iff.mp hs''
    obtain ⟨s, hs, hall⟩ := h.store x s' hs'
    have hnil : s.without [] = s := by simp [Store.without]
    rw [hnil] at hall
    exact ⟨s, hs, allAccepted_filter hall (!(d.ownedSubtree old).contains ·)⟩

end AllAccepted

/-- The removal may have been carried out. -/
def AfterAccepted (old : NodeId) (d d' : Document) : Prop :=
  AllAccepted [] d d' ∨ AllAccepted (d.ownedSubtree old) d d'

namespace AfterAccepted

theorem imp {d'' : Document} (h : AfterAccepted old d d')
    (hf : ∀ gone, AllAccepted gone d d' → AllAccepted gone d d'') : AfterAccepted old d d'' :=
  Or.imp (hf _) (hf _) h

theorem entry (h : AfterAccepted old d d') (hs' : d'.store? x = some s') (he' : e' ∈ s'.entries) :
    ∃ s e, d.store? x = some s ∧ e ∈ s.entries ∧ e.AllAccepted e' := by
  rcases h with h | h <;>
  · obtain ⟨s, e, hs, he, -, hr⟩ := h.entry hs' he'
    exact ⟨s, e, hs, he, hr⟩

theorem mem_inState (h : AfterAccepted old d d') {state : EntryState} (hne : state ≠ .existing)
    (hid : id ∈ d'.inState c state) : id ∈ d.inState c state := by
  obtain ⟨s', hs', e', he', rfl, rfl⟩ := Document.mem_inState.mp hid
  obtain ⟨s, e, hs, he, hr⟩ := h.entry hs' he'
  exact Document.mem_inState.mpr ⟨s, hs, e, he, (hr.eq_of_ne hne).symm, hr.node.symm⟩

theorem delete (h : AfterAccepted old d r.document) (hp : StagesOneRemoval b old d)
    (hw : ∀ t call, w.refusal? t call = none) :
    AfterAccepted old d (r.delete w b old).document := by
  obtain ⟨n₀, hn₀, hpar₀⟩ := isOwnedBy_iff.mp hp.owned
  have hstep := Run.deletion w b old r
  generalize r.delete w b old = r' at hstep
  rcases h with h | h
  · obtain ⟨n, hn, hwired⟩ := h.exists_node (by simp) hn₀
    have hpar : n.parent = some b := (congrArg (·.1.1.1) hwired).trans hpar₀
    cases hstep with
    | foreign hforeign => exact absurd hpar (hforeign n hn)
    | unwritten => exact .inr (h.dropped hp)
    | refused _ _ _ hm => simp [hw] at hm
    | deleted => exact .inr (h.dropped hp)
  · have hold := self_mem_ownedSubtree (isLive_iff.mpr ⟨n₀, hn₀⟩)
    have hnone := h.node?_eq_none hold
    cases hstep with
    | foreign =>
      refine .inr (h.modifyStore (h.linked.purge b old) fun s s' _ _ hall ↦ ?_)
      have hnot : old ∉ s'.nodes := fun hmem ↦ by
        obtain ⟨e', he', hn'⟩ := List.mem_map.mp hmem
        obtain ⟨e, he, hr⟩ := exists_of_mem_allAccepted hall he'
        exact (Store.mem_without.mp he).2 (by rwa [← hr.node, hn'])
      rwa [Store.purge_of_not_mem hnot]
    | unwritten hn | deleted hn => simp [hnone] at hn
    | refused hn => simp [hnone] at hn

theorem create (h : AfterAccepted old d r.document) (hp : StagesOneRemoval b old d)
    (hw : ∀ t call, w.refusal? t call = none) (hid : EndsIn c .toBeAdded d id) :
    AfterAccepted old d (r.create w c id).document := by
  have hstep := Run.creation w c id r
  generalize r.create w c id = r' at hstep
  cases hstep with
  | dead => exact h
  | refused _ hm => simp [hw] at hm
  | created range => exact h.imp fun _ h ↦ h.created hp hid range

theorem flush {inner : NodeId → Run σ → Run σ} (h : AfterAccepted old d r.document)
    (hin : AfterAccepted old d (inner id { r with clean := true }).document) :
    AfterAccepted old d (r.flush w inner c id).document := by
  have hstep := Run.flushing w inner c id r
  generalize r.flush w inner c id = r' at hstep
  cases hstep with
  | idle | refused => exact h
  | inside => exact hin
  | settled => exact hin.imp fun _ h ↦ h.modifyNode (h.linked.markWritten id) fun _ ↦ rfl
  | flushed => exact h.imp fun _ h ↦ h.modifyNode (h.linked.commit id) wired_commit

/-- Where the writer accepts everything, the write of a block carries out what is staged in it and
in the blocks that it comes to. There is one removal at most, and nothing is relocated. -/
theorem block (hp : StagesOneRemoval b old d) (hw : ∀ t call, w.refusal? t call = none)
    (h : AfterAccepted old d r.document) (fuel : Nat) (c : NodeId) :
    AfterAccepted old d (r.block w fuel c).document := by
  induction fuel generalizing c r with
  | zero => exact h
  | succ fuel ih =>
    have h₁ : AfterAccepted old d (r.deletions w c).document := by
      refine List.foldlRecOn (motive := fun r' : Run σ ↦ AfterAccepted old d r'.document) _
        (Run.delete w c) h fun r' hr id hid ↦ ?_
      obtain ⟨s, hs, e, he, hst, hid⟩ := Document.mem_inState.mp (h.mem_inState (by simp) hid)
      obtain ⟨rfl, hold⟩ := hp.removed c s e hs he hst
      obtain rfl : id = old := hid.symm.trans hold
      exact hr.delete hp hw
    have h₂ : AfterAccepted old d ((r.deletions w c).creations w c).document :=
      List.foldlRecOn (motive := fun r' : Run σ ↦ AfterAccepted old d r'.document) _
        (Run.create w c) h₁
        fun r' hr id hid ↦ hr.create hp hw (hp.linked.endsIn (h₁.mem_inState (by simp) hid))
    have h₃ : AfterAccepted old d (((r.deletions w c).creations w c).flushes w fuel c).document :=
      List.foldlRecOn (motive := fun r' : Run σ ↦ AfterAccepted old d r'.document) _
        (Run.flush w (Run.block w fuel) c) h₂ fun r' hr id _ ↦ hr.flush
          (ih (r := { r' with clean := true }) hr id)
    rw [Run.block_succ, Run.phases]
    generalize ((r.deletions w c).creations w c).flushes w fuel c = r₃ at h₃
    have hnone : r₃.document.inState c .moved = [] := by
      refine List.eq_nil_iff_forall_not_mem.mpr fun id hid ↦ ?_
      obtain ⟨s, hs, e, he, hst, -⟩ := Document.mem_inState.mp (h₃.mem_inState (by simp) hid)
      exact hp.moved c s e hs he hst
    rw [Run.relocations, hnone]
    exact h₃.imp fun _ h ↦ h.settle hp c

theorem writeMain (hp : StagesOneRemoval b old d) (hw : ∀ t call, w.refusal? t call = none)
    (st : σ) : AfterAccepted old d (d.writeMain w st).document := by
  have hstart : AfterAccepted old d d := .inl (.refl hp.linked)
  unfold Document.writeMain
  split
  · have hblock := block (r := { document := d, writer := st }) hp hw hstart d.nodes.size root
    dsimp only
    split
    · exact hblock.imp fun _ h ↦ h.modifyNode (h.linked.markWritten root) fun _ ↦ rfl
    · exact hblock
  · exact hstart

end AfterAccepted

end Document

end BuildScript
