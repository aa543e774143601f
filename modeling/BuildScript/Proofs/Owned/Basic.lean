import BuildScript.Proofs.Linked.Apply
import BuildScript.Proofs.Linked.Merge
import BuildScript.Proofs.Linked.Reset

namespace BuildScript.Document

variable {full : Prop} {ov : List NodeId} {U U' : NodeId → Prop} {d d' : Document}
  {b i o p x y : NodeId} {n : Node} {e e' : Entry} {s : Store}

/-- An entry refers to a live node. It is applied exactly when another block owns that node, and
then it has not been staged and is no state to come back to. In an overlay nothing is removed. -/
structure EntryFits (ov : List NodeId) (d : Document) (b : NodeId) (e : Entry) : Prop where
  owner : ∃ n, d.node? e.node = some n ∧ (n.parent = some b ↔ e.state ≠ .applied)
  restore : e.restore ≠ some .applied
  staged : e.staged = true → e.state ≠ .applied
  calm : e.state = .toBeRemoved → ∀ o ∈ ov, ¬ Below d o b

/-- Where every node must have a container around it: everywhere if `full`, and in overlays. -/
def NeedsContainer (full : Prop) (ov : List NodeId) (d : Document) (p : NodeId) : Prop :=
  full ∨ ∃ o ∈ ov, Below d o p

/-- Who owns what, with the overlays `ov`. Nodes in `U` are not listed by their parents yet, or not
any more. -/
structure Owned (full : Prop) (ov : List NodeId) (U : NodeId → Prop) (d : Document) : Prop where
  linked : Linked d
  entry : ∀ b s e, d.store? b = some s → e ∈ s.entries → EntryFits ov d b e
  overlay : ∀ o ∈ ov, o ≠ root ∧ ∃ n, d.node? o = some n ∧ n.parent = none ∧ n.isContainer
  top : ∀ x n, d.node? x = some n → n.parent = none → x = root ∨ x ∈ ov
  held : ∀ x n, d.node? x = some n → n.holders ≠ [] → ∃ o ∈ ov, Below d o x
  listed : ∀ x n p s, d.node? x = some n → n.parent = some p → d.store? p = some s →
    U x ∨ x ∈ s.nodes
  listsOwned : ∀ x n p, d.node? x = some n → n.parent = some p → NeedsContainer full ov d p →
    (d.store? p).isSome
  sources : ∀ q ∈ d.overlaySources, q.2 ∈ ov ∨ (q.2 < d.nextId ∧ d.node? q.2 = none)

def post (n : Node) : Option NodeId × Bool := (n.parent, n.isContainer)

def place (n : Node) : (Option NodeId × Bool) × List NodeId := (post n, n.holders)

theorem Below.congr (hn : ∀ i, (d'.node? i).map post = (d.node? i).map post) :
    Below d' o x ↔ Below d o x := by
  have hmono : ∀ {d d' : Document}, (∀ i, (d'.node? i).map post = (d.node? i).map post) →
      Below d' o x → Below d o x := by
    intro d d' hn hb
    refine hb.mono fun x n hx ↦ ?_
    have hp := hn x
    rw [hx] at hp
    obtain ⟨n₀, hn₀, he⟩ := Option.map_eq_some_iff.mp hp.symm
    exact ⟨n₀, hn₀, congrArg Prod.fst he⟩
  exact ⟨hmono hn, hmono fun i ↦ (hn i).symm⟩

theorem EntryFits.congr (h : EntryFits ov d b e)
    (hn : ∀ i, (d'.node? i).map post = (d.node? i).map post) : EntryFits ov d' b e where
  owner := by
    obtain ⟨n, hnode, hiff⟩ := h.owner
    have hp := hn e.node
    rw [hnode] at hp
    obtain ⟨n', hn', he⟩ := Option.map_eq_some_iff.mp hp
    exact ⟨n', hn', by rw [show n'.parent = n.parent from congrArg Prod.fst he]; exact hiff⟩
  restore := h.restore
  staged := h.staged
  calm hs o ho hb := h.calm hs o ho ((Below.congr hn).mp hb)

theorem EntryFits.change (h : EntryFits ov d b e) (hn : e'.node = e.node)
    (hs : e'.state = .applied ↔ e.state = .applied) (hr : e'.restore ≠ some .applied)
    (hst : e'.staged = true → e.staged = true)
    (hc : e'.state = .toBeRemoved → e.state = .toBeRemoved ∨ ∀ o ∈ ov, ¬ Below d o b) :
    EntryFits ov d b e' where
  owner := by
    obtain ⟨n, hnode, hiff⟩ := h.owner
    exact ⟨n, hn ▸ hnode, hiff.trans hs.not.symm⟩
  restore := hr
  staged he := hs.not.mpr (h.staged (hst he))
  calm he := (hc he).elim h.calm fun hb ↦ hb

namespace Owned

theorem congr_posts (h : Owned full ov U d) (hl : Linked d')
    (hn : ∀ i, (d'.node? i).map post = (d.node? i).map post)
    (hheld : ∀ x n, d'.node? x = some n → n.holders ≠ [] → ∃ o ∈ ov, Below d o x)
    (hs : ∀ i, d'.store? i = d.store? i) (hnext : d'.nextId = d.nextId)
    (hsrc : d'.overlaySources = d.overlaySources) : Owned full ov U d' := by
  have hnode : ∀ x n', d'.node? x = some n' → ∃ n, d.node? x = some n ∧ n'.parent = n.parent ∧
      n'.isContainer = n.isContainer := by
    intro x n' hn'
    have hp := hn x
    rw [hn'] at hp
    obtain ⟨n, hn₀, he⟩ := Option.map_eq_some_iff.mp hp.symm
    simp only [post, Prod.mk.injEq] at he
    exact ⟨n, hn₀, he.1.symm, he.2.symm⟩
  refine ⟨hl, fun b s e hb he ↦ ?_, fun o ho ↦ ?_, fun x n' hn' hp ↦ ?_, fun x n' hn' hh ↦ ?_,
    fun x n' p s hn' hp hps ↦ ?_, fun x n' p hn' hp hr ↦ ?_, fun q hq ↦ ?_⟩
  · exact (h.entry b s e ((hs b).symm.trans hb) he).congr hn
  · obtain ⟨hroot, n, hn₀, hp, hc⟩ := h.overlay o ho
    have hpl := hn o
    rw [hn₀] at hpl
    obtain ⟨n', hn', he⟩ := Option.map_eq_some_iff.mp hpl
    simp only [post, Prod.mk.injEq] at he
    exact ⟨hroot, n', hn', he.1.trans hp, he.2.trans hc⟩
  · obtain ⟨n, hn₀, hpar, -⟩ := hnode x n' hn'
    exact h.top x n hn₀ (hpar ▸ hp)
  · obtain ⟨o, ho, hb⟩ := hheld x n' hn' hh
    exact ⟨o, ho, (Below.congr hn).mpr hb⟩
  · obtain ⟨n, hn₀, hpar, -⟩ := hnode x n' hn'
    exact h.listed x n p s hn₀ (hpar ▸ hp) ((hs p).symm.trans hps)
  · obtain ⟨n, hn₀, hpar, -⟩ := hnode x n' hn'
    rw [hs]
    refine h.listsOwned x n p hn₀ (hpar ▸ hp) (hr.imp_right ?_)
    rintro ⟨o, ho, hb⟩
    exact ⟨o, ho, (Below.congr hn).mp hb⟩
  · rw [hnext]
    refine (h.sources q (hsrc ▸ hq)).imp_right fun hdead ↦ ⟨hdead.1, ?_⟩
    have hpl := hn q.2
    rw [hdead.2] at hpl
    simpa using hpl

theorem congr (h : Owned full ov U d) (hl : Linked d')
    (hn : ∀ i, (d'.node? i).map place = (d.node? i).map place)
    (hs : ∀ i, d'.store? i = d.store? i) (hnext : d'.nextId = d.nextId)
    (hsrc : d'.overlaySources = d.overlaySources) : Owned full ov U d' := by
  refine h.congr_posts hl (fun i ↦ ?_) (fun x n' hn' hh ↦ ?_) hs hnext hsrc
  · have hp := congrArg (Option.map Prod.fst) (hn i)
    rwa [Option.map_map, Option.map_map] at hp
  · have hp := hn x
    rw [hn'] at hp
    obtain ⟨n, hn₀, he⟩ := Option.map_eq_some_iff.mp hp.symm
    have hhold : n.holders = n'.holders := congrArg Prod.snd he
    exact h.held x n hn₀ (hhold ▸ hh)

theorem alike (h : Owned full ov U d) (ha : Alike d d') : Owned full ov U d' := by
  refine h.congr (h.linked.alike ha) (fun i ↦ ?_) ha.store? ha.nextId ha.overlaySources
  have hb := congrArg (Option.map place) (ha.bare i)
  rw [Option.map_map, Option.map_map] at hb
  exact hb

theorem modifyNode (h : Owned full ov U d) {f : Node → Node} (hl : Linked (d.modifyNode i f))
    (hf : ∀ n, d.node? i = some n → place (f n) = place n) : Owned full ov U (d.modifyNode i f) :=
  h.congr hl (map_node?_modifyNode hf) (fun _ ↦ rfl) (nextId_modifyNode d i f) rfl

theorem not_mem_of_parent (h : Owned full ov U d) (hn : d.node? x = some n)
    (hp : n.parent = some p) : x ∉ ov := by
  intro ho
  obtain ⟨-, m, hm, hpm, -⟩ := h.overlay x ho
  rw [hn] at hm
  cases hm
  simp [hp] at hpm

theorem settleNodes (h : Owned full ov U d) : Owned full ov U d.settleNodes := by
  refine h.congr h.linked.settleNodes (fun i ↦ ?_) (fun _ ↦ rfl) (Table.size_map ..) rfl
  simp only [Document.settleNodes, Document.node?, Table.get?_map, Option.map_map]
  rfl

theorem congr_stores (h : Owned full ov U d) (hl : Linked d') (hn : d'.nodes = d.nodes)
    (hsrc : d'.overlaySources = d.overlaySources)
    (hs : ∀ b s', d'.store? b = some s' → ∃ s, d.store? b = some s ∧
      (∀ e ∈ s'.entries, EntryFits ov d b e) ∧
      ∀ x n, d.node? x = some n → n.parent = some b → U x ∨ x ∈ s.nodes → U' x ∨ x ∈ s'.nodes) :
    Owned full ov U' d' := by
  have hnode : ∀ x, d'.node? x = d.node? x := fun x ↦ by simp only [Document.node?, hn]
  have hplace : ∀ i, (d'.node? i).map post = (d.node? i).map post := fun i ↦ by rw [hnode]
  refine ⟨hl, fun b s' e hb he ↦ ?_, fun o ho ↦ ?_, fun x n hx hp ↦ ?_, fun x n hx hh ↦ ?_,
    fun x n p s' hx hp hps ↦ ?_, fun x n p hx hp hr ↦ ?_, fun q hq ↦ ?_⟩
  · obtain ⟨s, -, hfits, -⟩ := hs b s' hb
    exact (hfits e he).congr hplace
  · rw [hnode]
    exact h.overlay o ho
  · exact h.top x n (hnode x ▸ hx) hp
  · obtain ⟨o, ho, hb⟩ := h.held x n (hnode x ▸ hx) hh
    exact ⟨o, ho, (Below.congr hplace).mpr hb⟩
  · obtain ⟨s, hs₀, -, hkeep⟩ := hs p s' hps
    exact hkeep x n (hnode x ▸ hx) hp (h.listed x n p s (hnode x ▸ hx) hp hs₀)
  · have hroof : NeedsContainer full ov d p := by
      refine hr.imp_right fun hover ↦ ?_
      obtain ⟨o, ho, hb⟩ := hover
      exact ⟨o, ho, (Below.congr hplace).mp hb⟩
    rw [hl.keyed, hnode, ← h.linked.keyed]
    exact h.listsOwned x n p (hnode x ▸ hx) hp hroof
  · rw [Document.nextId, hn, hnode]
    exact h.sources q (hsrc ▸ hq)

theorem modifyStore (h : Owned full ov U d) {f : Store → Store} (hl : Linked (d.modifyStore b f))
    (hf : ∀ s, d.store? b = some s → (∀ e ∈ (f s).entries, EntryFits ov d b e) ∧
      ∀ x n, d.node? x = some n → n.parent = some b → U x ∨ x ∈ s.nodes → U' x ∨ x ∈ (f s).nodes)
    (hU : ∀ x n, d.node? x = some n → n.parent ≠ some b → U x → U' x) :
    Owned full ov U' (d.modifyStore b f) := by
  refine h.congr_stores hl rfl rfl fun b' s' hs' ↦ ?_
  rcases store?_of_modifyStore hs' with ⟨rfl, s, hs, rfl⟩ | ⟨hb, hs'⟩
  · exact ⟨s, hs, hf s hs⟩
  · refine ⟨s', hs', fun e he ↦ h.entry b' s' e hs' he, fun x n hn hp hx ↦ hx.imp_left ?_⟩
    refine hU x n hn fun hpb ↦ hb ?_
    rw [hp] at hpb
    exact (Option.some.inj hpb).symm

theorem modifyStore_of_subset (h : Owned full ov U d) {f : Store → Store}
    (hl : Linked (d.modifyStore b f))
    (hf : ∀ s, d.store? b = some s → (∀ e ∈ (f s).entries, EntryFits ov d b e) ∧
      ∀ x ∈ s.nodes, x ∈ (f s).nodes) : Owned full ov U (d.modifyStore b f) :=
  h.modifyStore hl (fun s hs ↦ ⟨(hf s hs).1, fun x _ _ _ hx ↦ hx.imp_right ((hf s hs).2 x)⟩)
    fun _ _ _ _ hU ↦ hU

end Owned

end BuildScript.Document
