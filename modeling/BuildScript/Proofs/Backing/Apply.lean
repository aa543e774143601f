import BuildScript.Proofs.Apply.Traversal
import BuildScript.Proofs.Backing.Basic

namespace BuildScript

theorem Node.commit_source (n : Node) : n.commit.source = n.source := by
  unfold commit
  split <;> rfl

theorem Node.isBacked_createdAt (range : SourceRange) (n : Node) :
    (n.createdAt range).isBacked = range.isBacked := by
  have hs : (n.createdAt range).source = some range := by
    unfold createdAt
    dsimp only
    split
    · rfl
    · exact commit_source _
  simp [isBacked, hs]

theorem Store.settled_existsInSource (e : Entry) :
    (settled e).existsInSource = e.existsInSource := by
  unfold settled
  split <;> rfl

theorem Entry.IsWritten.of_settled {e : Entry} (h : (Store.settled e).IsWritten) : e.IsWritten := by
  unfold Store.settled at h
  split at h
  · exact h
  · next hne => simpa only [IsWritten, revert, if_neg hne] using h

namespace Document

variable {d₀ d d' : Document} {b id : NodeId} {n : Node} {s : Store} {e : Entry} {σ : Type}
  {C : NodeId → NodeId → Prop}

theorem KeepsText.purge (d : Document) (b id : NodeId) : KeepsText d (d.purge b id) :=
  .modifyStore d b _

theorem KeepsText.commit (d : Document) (id : NodeId) :
    KeepsText d (d.modifyNode id (·.commit.markWritten)) :=
  .modifyNode d id fun n ↦ ⟨n.commit_fields.1, n.commit_source⟩

theorem KeepsText.markWritten (d : Document) (id : NodeId) :
    KeepsText d (d.modifyNode id Node.markWritten) := .modifyNode d id fun _ ↦ ⟨rfl, rfl⟩

theorem Links.onlyUnstages (h : d.Links b id) (hc : OnlyUnstages C d d') : d'.Links b id := by
  refine h.mono (Nat.le_of_eq hc.nextId.symm) fun n' hn' _ ↦ ?_
  obtain ⟨n, hn, hp⟩ := hc.node id n' hn'
  exact ⟨n, hn, hp, fun _ hx ↦ (hc.calm id n n' hn hn').1 ▸ hx⟩

/-- The flags in the main tree tell the truth, and what is lent lies outside of it. -/
structure TextInvariant (d : Document) : Prop where
  linked : Linked d
  lent : Lent d
  truthful : Truthful d

namespace TextInvariant

theorem onlyUnstages (h : TextInvariant d) (hl : Linked d') (hc : OnlyUnstages C d d')
    (hk : KeepsText d d')
    (he : ∀ b s' e', Below d root b → d'.store? b = some s' → e' ∈ s'.entries → e'.IsWritten →
      ∃ s e, d.store? b = some s ∧ e ∈ s.entries ∧ e.IsWritten ∧ e'.node = e.node ∧
        e'.existsInSource = e.existsInSource) : TextInvariant d' where
  linked := hl
  lent := h.lent.follows h.linked (.inherits hc.toInherits fun x n n' hn hn' ↦
    (hc.calm x n n' hn hn').1)
  truthful := h.truthful.carried h.linked hk fun b s' e' hb hs' he' _ hwr ↦
    .inr (he b s' e' (hc.below hb) hs' he' hwr)

theorem nodes (h : TextInvariant d) {f : Node → Node} (hl : Linked (d.modifyNode id f))
    (hc : OnlyUnstages C d (d.modifyNode id f)) (hk : KeepsText d (d.modifyNode id f)) :
    TextInvariant (d.modifyNode id f) :=
  h.onlyUnstages hl hc hk fun _ s e _ hs he hwr ↦ ⟨s, e, hs, he, hwr, rfl, rfl⟩

theorem purge (h : TextInvariant d) (b id : NodeId) : TextInvariant (d.purge b id) := by
  refine h.onlyUnstages (C := fun _ _ ↦ True) (h.linked.purge b id) (.purge d b id) (.purge d b id)
    fun c s' e' _ hs' he' hwr ↦ ?_
  obtain ⟨s, hs, he⟩ := mem_of_mem_purge hs' he'
  exact ⟨s, e', hs, he, hwr, rfl, rfl⟩

theorem release (h : TextInvariant d) (hid : id ≠ root) : TextInvariant (d.release id) := by
  refine h.onlyUnstages (C := fun _ _ ↦ True) (h.linked.release hid) (.release h.linked id)
    (.release d id)
    fun c s' e' _ hs' he' hwr ↦ ?_
  obtain ⟨s, hs, -, hsub⟩ := store?_foldl_evict_sublist h.linked.distinct hs'
  exact ⟨s, e', hs, hsub.subset he', hwr, rfl, rfl⟩

theorem drop (h : TextInvariant d) (b : NodeId) (hid : id ≠ root) :
    TextInvariant ((d.purge b id).release id) := (h.purge b id).release hid

theorem commit (h : TextInvariant d) (id : NodeId) :
    TextInvariant (d.modifyNode id (·.commit.markWritten)) :=
  h.nodes (C := fun _ _ ↦ True) (h.linked.commit id) (.commit d id) (.commit d id)

theorem markWritten (h : TextInvariant d) (id : NodeId) :
    TextInvariant (d.modifyNode id Node.markWritten) :=
  h.nodes (C := fun _ _ ↦ True) (h.linked.markWritten id) (.markWritten d id) (.markWritten d id)

theorem settle (h : TextInvariant d) (b : NodeId) :
    TextInvariant (d.modifyStore b Store.settle) := by
  refine h.onlyUnstages (C := fun _ _ ↦ True) (h.linked.settle b) (.settle d b) (.modifyStore d b _)
    fun c s' e' _ hs' he' hwr ↦ ?_
  rcases store?_of_modifyStore hs' with ⟨-, s, hs, rfl⟩ | ⟨-, hs'⟩
  · rw [Store.settle_entries] at he'
    obtain ⟨e, he, rfl⟩ := List.mem_map.mp he'
    exact ⟨s, e, hs, he, hwr.of_settled, Store.settled_node e, Store.settled_existsInSource e⟩
  · exact ⟨s', e', hs', he', hwr, rfl, rfl⟩

theorem relocated (h : TextInvariant d) (hends : EndsIn b .moved d id) :
    TextInvariant (d.modifyEntry b id Entry.relocated) := by
  refine h.onlyUnstages (C := fun _ _ ↦ True) (h.linked.relocated b id) (.relocated hends)
    (.modifyStore d b _) fun c s' e' _ hs' he' hwr ↦ ?_
  rcases store?_of_modifyStore hs' with ⟨rfl, s, hs, rfl⟩ | ⟨-, hs'⟩
  · rcases Store.mem_modifyFirst he' with he | ⟨e, he, hid, rfl⟩
    · exact ⟨s, e', hs, he, hwr, rfl, rfl⟩
    · have hst := hends s hs e he hid
      exact ⟨s, e, hs, he, by simp [Entry.IsWritten, Entry.revert, hst], rfl, rfl⟩
  · exact ⟨s', e', hs', he', hwr, rfl, rfl⟩

/-- The entry and the node get the same range. No other entry in the main tree is the node's own. -/
theorem createdAt (h : TextInvariant d) (hn : d.node? id = some n) (hlinks : d.Links b id)
    (hends : EndsIn b .toBeAdded d id) (range : SourceRange) :
    TextInvariant ((d.modifyNode id (·.createdAt range)).modifyEntry b id (·.createdAt range)) := by
  have hunstages : OnlyUnstages (fun _ _ ↦ True) d
      ((d.modifyNode id (·.createdAt range)).modifyEntry b id (·.createdAt range)) :=
    .created hends trivial range
  refine ⟨h.linked.created b id range, h.lent.follows h.linked (.inherits hunstages.toInherits
    fun x n n' hn hn' ↦ (hunstages.calm x n n' hn hn').1),
      fun c s' e' hb hs' he' hown hwr n' hn' ↦ ?_⟩
  have hb₀ := hunstages.below hb
  have hown₀ := hunstages.isOwnedBy hown
  rw [Document.modifyEntry, node?_modifyStore, node?_modifyNode] at hn'
  rw [Document.modifyEntry, store?_modifyStore, store?_modifyNode] at hs'
  by_cases hid : id = e'.node
  · subst hid
    rw [if_pos rfl, hn] at hn'
    cases hn'
    have hpar := parent_of_isOwnedBy hown₀ hn
    rw [Node.isBacked_createdAt]
    rcases hlinks.2 n hn with hp | hp
    · obtain rfl : b = c := Option.some.inj (hp.symm.trans hpar)
      rw [if_pos rfl] at hs'
      obtain ⟨s, hs, rfl⟩ := Option.map_eq_some_iff.mp hs'
      obtain ⟨e, -, -, he⟩ := Store.mem_modifyEntry_self (h.linked.store b s hs).nodup he' rfl
      rw [he]
      rfl
    · obtain ⟨p, hpp, hnot⟩ := h.lent _ n hn (List.ne_nil_of_mem hp)
      obtain rfl : p = c := Option.some.inj (hpp.symm.trans hpar)
      exact absurd hb₀ hnot
  · rw [if_neg hid] at hn'
    split at hs'
    · next hc =>
      subst hc
      obtain ⟨s, hs, rfl⟩ := Option.map_eq_some_iff.mp hs'
      have he := (Store.mem_modifyEntry_of_ne (f := Entry.createdAt range) (fun _ ↦ rfl)
        (Ne.symm hid)).mp he'
      exact h.truthful b s e' hb₀ hs he hown₀ hwr n' hn'
    · exact h.truthful c s' e' hb₀ hs' he' hown₀ hwr n' hn'

theorem settleAll (h : TextInvariant d) (hb : ¬ Below d root b) (hrem : Lacks b .toBeRemoved d) :
    TextInvariant (d.modifyStore b Store.settleAll) := by
  refine h.onlyUnstages (C := fun _ _ ↦ True) (h.linked.settleAll b)
    (.settleAll (fun _ ↦ trivial) hrem)
    (.modifyStore d b _) fun c s' e' hc hs' he' hwr ↦ ?_
  have hne : b ≠ c := fun heq ↦ hb (heq ▸ hc)
  rw [store?_modifyStore, if_neg hne] at hs'
  exact ⟨s', e', hs', he', hwr, rfl, rfl⟩

theorem advance (h : TextInvariant d) (hl : Linked d₀) (htops : OverlaysApart d₀)
    (hc : OnlyUnstages C d₀ d) (hstep : Advance d₀ d d') : TextInvariant d' := by
  cases hstep with
  | markWritten id => exact h.markWritten id
  | commit id => exact h.commit id
  | created range _ hid hn hends =>
    obtain ⟨s, hs, e, he, -, rfl⟩ := mem_inState.mp hid
    have hlinks := (hl.store _ s hs).links _ (Store.mem_nodes_of_mem he)
    exact h.createdAt hn (hlinks.onlyUnstages hc) hends range
  | relocated _ _ hends => exact h.relocated hends
  | settle => exact h.settle _
  | settleAll ho hnest hrem =>
    exact h.settleAll (fun hb ↦ htops.not_below hl ho (hc.below hb) hnest.toBelow) hrem
  | purge => exact h.purge _ _
  | drop _ _ _ _ hne => exact h.drop _ hne

theorem apply (h : TextInvariant d) (hc : OverlaysApart d) (w : Writer σ) (st : σ) :
    TextInvariant (d.apply w st).document :=
  (Advanced.apply h.linked w st).keeps h.linked h fun _ _ _ hunstages hstep hd ↦
    hd.advance h.linked hc hunstages hstep

end TextInvariant

theorem Reached.truthful {allowed : Document → Edit → Prop} (hd : Reached allowed d) :
    Truthful d := by
  induction hd with
  | new id config => exact fun b s e _ hs he ↦ absurd he (not_mem_new hs)
  | edit edit hd _ ih => exact ih.altered hd.linked edit
  | reset hd ih => exact ih.reset hd.linked
  | apply w s hd ih =>
    exact (TextInvariant.apply ⟨hd.linked, hd.lent, ih⟩ hd.overlaysApart w s).truthful
  | merge other hd ih => exact ih.merged hd.linked other
  | @takeDiagnostics d hd ih =>
    intro b s e hb
    have hb' : Below d root b := by
      refine hb.mono fun _ m hm ↦ ?_
      exact ⟨m, hm, rfl⟩
    exact ih b s e hb'

/-- Whatever has been done and refused, a block of the main tree knows of each node of its own that
is there or has been moved whether there is text for it. -/
theorem existsInSource_eq_isBacked (hd : d.Reachable) (hb : Below d root b)
    (hs : d.store? b = some s) (he : e ∈ s.entries) (hn : d.node? e.node = some n)
    (hp : n.parent = some b) (hst : e.state = .existing ∨ e.state = .moved) :
    e.existsInSource = n.isBacked :=
  hd.truthful b s e hb hs he (isOwnedBy_iff.mpr ⟨n, hn, hp⟩) (.of_isDue hst) n hn

/-- A parsed literal that has been moved behind one that was staged with a range of its own, for
which the writer has written nothing. -/
def relaidDocument : Document :=
  let d := ((Edit.addParsed root
    { name := ⟨["x"]⟩, kind := .literal (.integer 1), source := some ⟨0, 5, true⟩ }).run
      (.new ⟨"app"⟩ {})).2
  let d := ((Edit.add root
    { name := ⟨["y"]⟩, kind := .literal (.integer 2), source := some ⟨7, 12, true⟩ }).run d).2
  ((Edit.moveTo root 1 1).run (d.apply (.constant ⟨5, 5, true⟩) ()).document).2

/-- The moved literal `1` has text, and the created literal `2` has none. -/
theorem existsInSource_eq_isBacked_relaid :
    relaidDocument.entries root = [⟨2, .existing, false, false, none⟩,
        ⟨1, .moved, true, false, none⟩] ∧
      (relaidDocument.node? 2).map Node.isBacked = some false ∧
      (relaidDocument.node? 1).map Node.isBacked = some true := by
  have hentries : relaidDocument.entries root = [⟨2, .existing, false, false, none⟩,
      ⟨1, .moved, true, false, none⟩] := by decide
  have hreach : relaidDocument.Reachable :=
    .edit (.moveTo root 1 1) (.apply _ () (.edit (.add root _) (.edit (.addParsed root _)
      (.new ⟨"app"⟩ {}) trivial) trivial)) trivial
  have hknown : ∀ e ∈ relaidDocument.entries root, relaidDocument.isOwnedBy e.node root →
      e.state = .existing ∨ e.state = .moved →
      (relaidDocument.node? e.node).map Node.isBacked = some e.existsInSource := by
    intro e he hown hst
    obtain ⟨s, hs, hmem⟩ := mem_entries.mp he
    obtain ⟨n, hn, hp⟩ := isOwnedBy_iff.mp hown
    rw [existsInSource_eq_isBacked hreach .refl hs hmem hn hp hst, hn]
    rfl
  refine ⟨hentries, ?_, ?_⟩
  · exact hknown ⟨2, .existing, false, false, none⟩ (by simp [hentries]) (by decide) (.inl rfl)
  · exact hknown ⟨1, .moved, true, false, none⟩ (by simp [hentries]) (by decide) (.inr rfl)

end Document

end BuildScript
