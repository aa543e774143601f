import BuildScript.Proofs.CommittedOrder
import BuildScript.Proofs.Document.Lookup
import BuildScript.Proofs.Settlement

namespace BuildScript

theorem Entry.isVisible_revert {e : Entry} (h : e.isVisible) : e.revert.isVisible := by
  unfold revert isVisible at *
  cases hs : e.state <;> simp_all [EntryState.isVisible]

namespace Document

variable {d d' other : Document} {b o t x : NodeId} {name : String} {n : Node} {s : Store}
  {e : Entry}

namespace UnstagedAround

theorem of_dead (hn : d.node? x = none) : UnstagedAround d x := .top fun n h ↦ by simp [hn] at h

theorem later (h : UnstagedAround d x) (ho : d.Older) (hx : x < d.nextId)
    (hnode : ∀ y n', y < d.nextId → d'.node? y = some n' → ∃ n, d.node? y = some n ∧
      n'.parent = n.parent)
    (hstaged : ∀ b s' y, y < d.nextId → d'.store? b = some s' → y ∈ s'.stagedNodes →
      ∃ s, d.store? b = some s ∧ y ∈ s.stagedNodes) : UnstagedAround d' x := by
  intro t b s' hb hown hs' ht
  have hb' := below_of_older ho hx hnode hb
  have htlt := Nat.lt_of_le_of_lt (hb'.le ho) hx
  obtain ⟨s, hs, ht'⟩ := hstaged b s' t htlt hs' ht
  exact h t b s hb' (isOwnedBy_of_parent (fun n' hn' ↦ hnode t n' htlt hn') hown) hs ht'

theorem node?_reset (ha : UnstagedAround d x) (h : Linked d) (hn : d.node? x = some n) :
    d.reset.node? x = some (n.settledAt x) := by
  obtain ⟨l, he, hanchor⟩ := reset_evicts h
  rw [he, node?_settleNodes, node?_foldl_evict, if_neg (hanchor x ha), node?_resetStores, hn]
  rfl

theorem revert_mem_reset (hb : UnstagedAround d b) (hx : UnstagedAround d e.node) (h : Linked d)
    (hs : d.store? b = some s) (he : e ∈ s.entries) (hst : e.staged = false) :
    e.revert ∈ d.reset.entries b := by
  obtain ⟨l, hl, hanchor⟩ := reset_evicts h
  have hs' : d.resetStores.store? b = some s.reset := by
    rw [store?_resetStores, hs, Option.map_some]
  obtain ⟨s', hs', hkeep⟩ := mem_store?_foldl_evict hs' (hanchor b hb) h.resetStores.distinct
  rw [hl, entries_eq (show (settleNodes _).store? b = some s' from hs')]
  exact hkeep e.revert (Store.revert_mem_reset he hst) (hanchor e.node hx)

end UnstagedAround

theorem Loses.supersede (h : Linked d) (source : DocumentId) :
    Loses b d (d.supersede source).2 := by
  unfold Document.supersede
  split
  · exact .refl b d
  · next o _ =>
    let forgotten : Document := { d with
      overlaySources := d.overlaySources.filter (·.1 != source)
      overlays := d.overlays.filter (· != o) }
    have hl : Linked forgotten :=
      h.of_tables rfl rfl fun q hq ↦ h.sources q (List.mem_filter.mp hq).1
    exact Loses.release hl o

/-- What a block has got for good but does not own is not staged where it belongs. -/
def BorrowsUnstaged (d : Document) : Prop :=
  ∀ b s e, d.store? b = some s → e ∈ s.entries → e.staged = false → ¬ d.isOwnedBy e.node b →
    UnstagedAround d e.node

namespace BorrowsUnstaged

/-- Where an entry of a block comes from when older nodes and their entries stay as they are: it was
there, is staged for a new node, or its node belongs to the block or is not staged around it. -/
inductive Source (d d' : Document) (b : NodeId) (e : Entry) : Prop
  | old {s : Store} {e₀ : Entry} : d.store? b = some s → e₀ ∈ s.entries → e₀.node = e.node →
      e₀.staged = e.staged → Source d d' b e
  | staged : e.staged = true → d.nextId ≤ e.node → Source d d' b e
  | owned : e.staged = false → d'.isOwnedBy e.node b → Source d d' b e
  | unstagedAround : e.staged = false → UnstagedAround d' e.node → Source d d' b e

theorem carry (h : BorrowsUnstaged d) (hl : Linked d)
    (hnode : ∀ y n', y < d.nextId → d'.node? y = some n' → ∃ n, d.node? y = some n ∧
      n'.parent = n.parent)
    (hsource : ∀ b s e, d'.store? b = some s → e ∈ s.entries → Source d d' b e) :
    BorrowsUnstaged d' := by
  have hstaged : ∀ b s y, y < d.nextId → d'.store? b = some s → y ∈ s.stagedNodes →
      ∃ s₀, d.store? b = some s₀ ∧ y ∈ s₀.stagedNodes := by
    intro b s y hy hs hst
    obtain ⟨e, he, htrue, rfl⟩ := Store.mem_stagedNodes.mp hst
    cases hsource b s e hs he with
    | old hs₀ he₀ hsame hkept =>
      exact ⟨_, hs₀, Store.mem_stagedNodes.mpr ⟨_, he₀, hkept.trans htrue, hsame⟩⟩
    | staged _ hle => exact absurd hy (Nat.not_lt.mpr hle)
    | owned hfalse | unstagedAround hfalse => simp [htrue] at hfalse
  intro b s e hs he hst hown
  cases hsource b s e hs he with
  | @old s₀ e₀ hs₀ he₀ hsame hkept =>
    rw [← hsame] at hown ⊢
    by_cases hown₀ : d.isOwnedBy e₀.node b
    · refine .of_dead (Option.eq_none_iff_forall_ne_some.mpr fun n' hn' ↦ hown ?_)
      obtain ⟨n, hn, -⟩ := isOwnedBy_iff.mp hown₀
      obtain ⟨m, hm, hpar⟩ := hnode _ n' (lt_nextId hn) hn'
      exact isOwnedBy_iff.mpr ⟨n', hn', hpar.trans (parent_of_isOwnedBy hown₀ hm)⟩
    · have hlt := ((hl.store b s₀ hs₀).links _ (Store.mem_nodes_of_mem he₀)).1
      exact (h b s₀ e₀ hs₀ he₀ (hkept.trans hst) hown₀).later hl.older hlt hnode hstaged
  | staged htrue => simp [hst] at htrue
  | owned _ hyes => exact absurd hyes hown
  | unstagedAround _ ha => exact ha

theorem altered {edit : Edit} (h : BorrowsUnstaged d) (hl : Linked d) (ha : Alters d edit d') :
    BorrowsUnstaged d' := by
  refine h.carry hl (fun y n' hy ↦ ha.node_parent hy) fun b s e hs hmem ↦ ?_
  cases ha.entry b s e hs hmem with
  | kept hs he | hidden hs he => exact .old hs he rfl rfl
  | withdrawn hs he =>
    exact .old hs he (Entry.withdraw_node _).symm (Entry.withdraw_staged _).symm
  | moved hs he => exact .old hs he (Store.relocated_node _).symm (Store.relocated_staged _).symm
  | parsed _ _ hown => exact .owned rfl hown
  | staged _ hle => exact .staged rfl hle
  | replacing => exact .staged rfl (Nat.le_refl _)

theorem reset (h : Linked d) : BorrowsUnstaged d.reset := by
  intro b s e _ _ _ _ t c s' _ _ hs' ht
  obtain ⟨e', he', hst', -⟩ := Store.mem_stagedNodes.mp ht
  obtain ⟨-, e₀, -, -, hst, rfl⟩ := mem_reset h hs' he'
  simp [Entry.revert, hst] at hst'

/-- What is lent lies in an overlay, and after an apply nothing is staged in an overlay. -/
theorem apply {σ : Type} (h : Traced (fun _ ↦ True) d) (w : Writer σ) (st : σ)
    (hm : LentInOverlays (d.apply w st).document) : BorrowsUnstaged (d.apply w st).document := by
  obtain ⟨ht, -, hquiet⟩ := h.apply w st
  intro b s e hs he _ hown
  cases hn : (d.apply w st).document.node? e.node with
  | none => exact .of_dead hn
  | some n =>
    have hheld := ht.linked.mem_holders hs he hn fun hp ↦ hown (isOwnedBy_iff.mpr ⟨n, hn, hp⟩)
    obtain ⟨o, ho, hnest⟩ := hm _ n hn (List.ne_nil_of_mem hheld)
    exact .of_nested (fun m hm ↦ ((ht.overlaysApart o ho).2.2 m hm).1)
      (ht.quiet o ho (hquiet o ho)) hnest

theorem supersede (h : BorrowsUnstaged d) (hl : Linked d) (source : DocumentId) :
    BorrowsUnstaged (d.supersede source).2 := by
  refine h.carry hl (fun y n' hy hn' ↦ ?_) fun b s e hs he ↦ ?_
  · obtain ⟨n, hn, hp, -⟩ := (Merged.supersede hl source).node y n' hy hn'
    exact ⟨n, hn, hp⟩
  · obtain ⟨s₀, hs₀, he₀⟩ := Loses.supersede hl source s e hs he
    exact .old hs₀ he₀ rfl rfl

end BorrowsUnstaged

structure Untouched (o : NodeId) (d : Document) : Prop where
  top : ∃ n, d.node? o = some n ∧ n.parent = none
  settled : ∀ b s e, d.store? b = some s → e ∈ s.entries → o ≤ e.node → e.staged = false

namespace Untouched

theorem push (h : Linked d) : Untouched d.nextId (d.push overlayNode) where
  top := ⟨overlayNode, by simp, rfl⟩
  settled b s e hs he hle := by
    have hs₀ := store?_of_mem_push h.sizes hs he
    have hlt := ((h.store b s hs₀).links _ (Store.mem_nodes_of_mem he)).1
    exact absurd hlt (Nat.not_lt.mpr hle)

theorem enroll (h : Untouched o d) (hl : Linked d) (b : NodeId) (n : Node) :
    Untouched o (d.enroll b n) where
  top := by
    obtain ⟨m, hm, hp⟩ := h.top
    exact ⟨m, node?_enroll_of_some hm b n, hp⟩
  settled c s e hs he hle := by
    rcases mem_store?_enroll hl hs he with ⟨s₀, hs₀, he₀⟩ | ⟨-, rfl⟩
    · exact h.settled c s₀ e hs₀ he₀ hle
    · rfl

theorem lend (h : Untouched o d) (b t : NodeId) : Untouched o (d.lend b t) where
  top := by
    obtain ⟨m, hm, hp⟩ := h.top
    obtain ⟨m', hm', hp'⟩ := node?_lend_of_some hm b t
    exact ⟨m', hm', hp'.trans hp⟩
  settled c s e hs he hle := by
    rcases mem_store?_add hs he with ⟨s₀, hs₀, he₀⟩ | ⟨-, rfl⟩
    · exact h.settled c s₀ e hs₀ he₀ hle
    · rfl

theorem announced (h : Untouched o d) (source : DocumentId) :
    Untouched o ((d.recordEdges o).announce source o) := by
  have ha : Alike d (d.recordEdges o) := .recordEdges d o
  obtain ⟨n, hn, hp⟩ := h.top
  obtain ⟨n', hn', he⟩ := ha.symm.node? hn
  have hpar : n'.bare.parent = n.bare.parent := by rw [he]
  refine ⟨⟨n', hn', hpar.trans hp⟩, fun b s e hs ↦ h.settled b s e ?_⟩
  rwa [← ha.store? b]

theorem unstagedAround (h : Untouched o d) (hl : Linked d) (hx : Below d o x) :
    UnstagedAround d x := by
  intro t b s ht _ hs hst
  obtain ⟨n, hn, hp⟩ := h.top
  have hle : o ≤ t := by
    rcases ht.total hx with hto | hot
    · refine Nat.le_of_eq (hto.eq_of_top fun m hm ↦ ?_)
      rw [hn] at hm
      cases hm
      exact hp
    · exact hot.le hl.older
  obtain ⟨e, he, htrue, rfl⟩ := Store.mem_stagedNodes.mp hst
  simp [h.settled b s e hs he hle] at htrue

end Untouched

namespace BorrowsUnstaged

theorem enroll (h : BorrowsUnstaged d) (hl : Linked d) (hp : n.parent = some b) :
    BorrowsUnstaged (d.enroll b n) := by
  refine h.carry hl (fun y m hy hm ↦ ⟨m, ?_, rfl⟩) fun c s e hs he ↦ ?_
  · rwa [node?_enroll, if_neg (Nat.ne_of_lt hy)] at hm
  · rcases mem_store?_enroll hl hs he with ⟨s₀, hs₀, he₀⟩ | ⟨rfl, rfl⟩
    · exact .old hs₀ he₀ rfl rfl
    · exact .owned rfl (isOwnedBy_iff.mpr ⟨n, by rw [node?_enroll]; exact if_pos rfl, hp⟩)

theorem lend (h : BorrowsUnstaged d) (hl : Linked d) (ht : UnstagedAround (d.lend b t) t) :
    BorrowsUnstaged (d.lend b t) := by
  refine h.carry hl (fun y m _ hm ↦ ?_) fun c s e hs he ↦ ?_
  · obtain ⟨m₀, hm₀, hpar, -⟩ := node?_of_lend hm
    exact ⟨m₀, hm₀, hpar⟩
  · rcases mem_store?_add hs he with ⟨s₀, hs₀, he₀⟩ | ⟨-, rfl⟩
    · exact .old hs₀ he₀ rfl rfl
    · exact .unstagedAround rfl ht

theorem merge (h : BorrowsUnstaged d) (hl : Linked d) (other : Document) :
    BorrowsUnstaged (d.merge other).2 := by
  refine (merge_induction (C := fun d' ↦ BorrowsUnstaged d' ∧ Untouched (d.overlayId other) d')
    (M := fun d' ↦ BorrowsUnstaged d' ∧ Untouched (d.overlayId other) d') hl other
    ⟨?_, ?_⟩ ?_ ?_ ?_ ?_).2.1
  · refine (h.supersede hl other.id).carry (hl.supersede other.id) (fun y m hy hm ↦ ⟨m, ?_, rfl⟩)
      fun b s e hs he ↦ .old (store?_of_mem_push (hl.supersede other.id).sizes hs he) he rfl rfl
    rwa [node?_push, if_neg (Nat.ne_of_lt hy)] at hm
  · exact .push (hl.supersede other.id)
  · rintro d' b n s hd - ⟨hsec, hun⟩ - -
    exact ⟨hsec.enroll hd rfl, hun.enroll hd b _⟩
  · rintro d' hd - ⟨hsec, hun⟩
    refine ⟨hsec.carry hd (fun y m hy hm ↦ ?_) fun b s e hs he ↦ .old ?_ he rfl rfl,
      hun.announced other.id⟩
    · obtain ⟨n, hn, he⟩ := (Alike.recordEdges d' _).node? hm
      exact ⟨n, hn, (Node.fields_of_bare he).1⟩
    · rwa [← (Alike.recordEdges d' (d.overlayId other)).store? b]
  · rintro d' b t n p hd ⟨hsec, hun⟩ - hn hh hp hne hb -
    have hun' := hun.lend b t
    have hb' : Below (d'.lend b t) (d.overlayId other) t := hb.mono fun y m hm ↦ by
      rw [node?_lend, hm]
      split
      · exact ⟨_, rfl, rfl⟩
      · exact ⟨m, rfl, rfl⟩
    exact ⟨hsec.lend hd (hun'.unstagedAround (hd.lend hn hp hne hh) hb'), hun'⟩
  · rintro d' b name kind hd ⟨hsec, hun⟩ -
    exact ⟨hsec.enroll hd rfl, hun.enroll hd b _⟩

end BorrowsUnstaged

theorem Reached.borrowsUnstaged {allowed : Document → Edit → Prop} (hd : Reached allowed d) :
    BorrowsUnstaged d := by
  induction hd with
  | new id config => exact fun b s e hs he ↦ absurd he (not_mem_new hs)
  | edit edit hd _ ih => exact ih.altered hd.linked (alters hd.linked edit)
  | reset hd _ => exact .reset hd.linked
  | apply w s hd _ => exact .apply hd.fullyTraced.toTraced w s (hd.apply w s).lentInOverlays
  | merge other hd ih => exact ih.merge hd.linked other
  | takeDiagnostics hd ih =>
    exact ih.carry hd.linked (fun _ n _ hn ↦ ⟨n, hn, rfl⟩) fun b s e hs he ↦ .old hs he rfl rfl

/-- A block has an entry that is not staged and declares a name once a reset has brought it back. -/
def Recovers (d : Document) (b : NodeId) (name : String) : Prop :=
  ∃ e ∈ d.entries b, e.staged = false ∧ d.declares name e.revert

instance (d : Document) (b : NodeId) (name : String) : Decidable (d.Recovers b name) :=
  inferInstanceAs (Decidable (∃ e ∈ d.entries b, _))

theorem Recovers.of_declares (he : e ∈ d.entries b) (hst : e.staged = false)
    (hdecl : d.declares name e) : d.Recovers b name := by
  obtain ⟨hvisible, hnode⟩ := declares_iff.mp hdecl
  exact ⟨e, he, hst, declares_iff.mpr ⟨Entry.isVisible_revert hvisible, hnode⟩⟩

theorem BorrowsUnstaged.propertyNamed?_reset (h : BorrowsUnstaged d) (hl : Linked d)
    (hb : UnstagedAround d b)
    (hr : d.Recovers b name) : (d.reset.propertyNamed? b name).isSome := by
  obtain ⟨e, he, hst, hdecl⟩ := hr
  obtain ⟨s, hs, he⟩ := mem_entries.mp he
  obtain ⟨hvisible, n, hn, hvar, hname⟩ := declares_iff.mp hdecl
  have hx : UnstagedAround d e.node := by
    by_cases hown : d.isOwnedBy e.node b
    · exact hb.listed hl hs he hst hown
    · exact h b s e hs he hst hown
  have hmem := hb.revert_mem_reset hx hl hs he hst
  have hdecl' : d.reset.declares name e.revert := declares_iff.mpr
    ⟨hvisible, n.settledAt e.node, hx.node?_reset hl hn, hvar, hname⟩
  rw [propertyNamed?_eq, Option.isSome_map, Option.isSome_iff_ne_none, Ne, Entry.pick_eq_none_iff]
  exact List.ne_nil_of_mem (List.mem_filter.mpr ⟨hmem, hdecl'⟩)

end Document

end BuildScript
