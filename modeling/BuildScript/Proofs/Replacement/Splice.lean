import BuildScript.Proofs.Replacement.Acceptance
import BuildScript.Proofs.Replacement.Representation
import BuildScript.Proofs.Traces

namespace BuildScript

namespace Document

variable {d d₁ : Document} {b old x y : NodeId} {n : Node} {s s₁ : Store} {e : Entry}
  {spec : Spec}

theorem Lent.isOwnedBy (hlent : Lent d) (h : Linked d) (hs : d.store? x = some s) (hy : y ∈ s.nodes)
    (hb : Below d root y) : d.isOwnedBy y x := by
  have hlive := hb.isLive (isLive_iff.mpr (h.root.imp fun _ hn ↦ hn.1))
  obtain ⟨m, hm⟩ := isLive_iff.mp hlive
  rcases ((h.store x s hs).links y hy).2 m hm with hp | hh
  · exact isOwnedBy_iff.mpr ⟨m, hm, hp⟩
  · obtain ⟨p, hp, hnot⟩ := hlent y m hm (List.ne_nil_of_mem hh)
    rcases hb.eq_or_parent hm hp with rfl | hbp
    · exact absurd rfl (h.ne_root_of_parent hm hp)
    · exact absurd hbp hnot

/-- Nothing in the tree of `old` is listed outside of it, but for `old` in its block `b`. -/
def ListedOnlyInside (b old : NodeId) (d : Document) : Prop :=
  ∀ x s y, d.store? x = some s → y ∈ s.nodes → y ∈ d.ownedSubtree old →
    x = b ∧ y = old ∨ x ∈ d.ownedSubtree old

theorem Lent.listedOnlyInside (hlent : Lent d) (h : Linked d) (hb : Below d root b)
    (hown : d.isOwnedBy old b) : ListedOnlyInside b old d := by
  intro x s y hs hy hmem
  obtain ⟨n, hn, hp⟩ := isOwnedBy_iff.mp hown
  have hroot : Below d root y := (Below.step hb hn hp).trans (ownedSubtree_below hmem)
  have howned := hlent.isOwnedBy h hs hy hroot
  by_cases hyo : y = old
  · subst hyo
    exact .inl ⟨owner_unique howned hown, rfl⟩
  · obtain ⟨m, hm, hpm⟩ := isOwnedBy_iff.mp howned
    exact .inr (ownedSubtree_parent hmem hyo hm hpm)

/-- In the block `b` of `d`, where nothing was staged, `old` is replaced: in `d₁` a staged tree
stands in front of it, and it is to go. All else is as it was, and the tree lists only itself. -/
structure Spliced (b old : NodeId) (s : Store) (spec : Spec) (d d₁ : Document) : Prop where
  before : Linked d
  listed : d.store? b = some s
  owned : d.isOwnedBy old b
  quiet : ∀ x s e, d.store? x = some s → e ∈ s.entries → e.isStaged = false ∧ e.restore = none
  linked : Linked d₁
  node : ∀ x, x < d.nextId → (d₁.node? x).map Node.bare = (d.node? x).map Node.bare
  slot : d₁.store? b = some (s.replace old d.nextId)
  store : ∀ x, x < d.nextId → x ≠ b → d₁.store? x = d.store? x
  fresh : ∀ x s e, d.nextId ≤ x → d₁.store? x = some s → e ∈ s.entries →
    d.nextId ≤ e.node ∧ ∃ existsInSource, e = .fresh e.node .toBeAdded existsInSource
  tree : Represents d₁ d.nextId spec
  scanned : ∀ x ∈ d₁.ownedSubtree d.nextId, ∀ n, d₁.node? x = some n → n.IsScanned x
  unmarked : ∀ o ∈ d₁.overlays, ¬ d₁.isModified o
  listedOnlyInside : ListedOnlyInside b old d₁

namespace Spliced

theorem isOwnedBy_eq (h : Spliced b old s spec d d₁) (hx : x < d.nextId) (y : NodeId) :
    d₁.isOwnedBy x y = d.isOwnedBy x y := by
  have hb := congrArg (Option.map Node.parent) (h.node x hx)
  simp only [Option.map_map] at hb
  have hp : (d₁.node? x).map Node.parent = (d.node? x).map Node.parent := hb
  simp only [isOwnedBy, ← Option.any_map (f := Node.parent) (p := (· == some y)), hp]

theorem isLive_eq (h : Spliced b old s spec d d₁) (hx : x < d.nextId) :
    d₁.isLive x = d.isLive x := by
  simpa [isLive] using congrArg Option.isSome (h.node x hx)

theorem isOwnedBy (h : Spliced b old s spec d d₁) : d₁.isOwnedBy old b := by
  obtain ⟨n, hn, -⟩ := isOwnedBy_iff.mp h.owned
  exact (h.isOwnedBy_eq (lt_nextId hn) b).trans h.owned

theorem nextId_lt (h : Spliced b old s spec d d₁) : d.nextId < d₁.nextId := by
  obtain ⟨n, hn⟩ := isLive_iff.mp h.tree.isLive
  exact lt_nextId hn

theorem entry (h : Spliced b old s spec d d₁)
    (hs₁ : d₁.store? x = some s₁) (he : e ∈ s₁.entries) :
    (∃ s, d.store? x = some s ∧ e ∈ s.entries) ∨
    (x = b ∧ e.node = old ∧ e.state = .toBeRemoved) ∨
    (e.staged = true ∧ e.restore = none ∧ e.state ≠ .moved ∧ e.state ≠ .toBeRemoved) := by
  by_cases hx : d.nextId ≤ x
  · obtain ⟨-, existsInSource, he⟩ := h.fresh x s₁ e hx hs₁ he
    rw [he]
    exact .inr (.inr ⟨rfl, rfl, by simp [Entry.fresh], by simp [Entry.fresh]⟩)
  · by_cases hxb : x = b
    · subst hxb
      rw [h.slot] at hs₁
      cases hs₁
      rcases Store.mem_replaceFirst he with he | ⟨e₀, -, hold, rfl | rfl⟩
      · exact .inl ⟨s, h.listed, he⟩
      · exact .inr (.inl ⟨rfl, (Entry.withdraw_node e₀).trans hold, e₀.withdraw_state⟩)
      · refine .inr (.inr ⟨rfl, rfl, ?_⟩)
        cases hst : e₀.state <;>
          simp [Store.replacement, Entry.fresh, Store.replacementState, hst]
    · exact .inl ⟨s₁, (h.store x (Nat.not_le.mp hx) hxb).symm.trans hs₁, he⟩

/-- Only what has just been spliced in is staged. -/
theorem stagesOneRemoval (h : Spliced b old s spec d d₁) : StagesOneRemoval b old d₁ := by
  have hentry : ∀ x s₁ e, d₁.store? x = some s₁ → e ∈ s₁.entries → e.state ≠ .moved ∧
      (e.state = .toBeAdded → e.staged = true) ∧ (e.state = .toBeRemoved → x = b ∧ e.node = old) ∧
      (e.state ≠ .toBeRemoved → e.restore = none) := by
    intro x s₁ e hs₁ he
    rcases h.entry hs₁ he with ⟨s₀, hs₀, he₀⟩ | ⟨hx, hnode, hst⟩ | ⟨hstaged, hr, hmov, hrem⟩
    · obtain ⟨hst, hr⟩ := h.quiet x s₀ e hs₀ he₀
      rw [Entry.isStaged, Bool.or_eq_false_iff] at hst
      cases hstate : e.state <;> simp_all [EntryState.isPending]
    · simp [hst, hnode, hx]
    · exact ⟨hmov, fun _ ↦ hstaged, fun hst ↦ absurd hst hrem, fun _ ↦ hr⟩
  exact ⟨h.linked, h.isOwnedBy,
    fun x s₁ e hs₁ he ↦ (hentry x s₁ e hs₁ he).1, fun x s₁ e hs₁ he ↦ (hentry x s₁ e hs₁ he).2.1,
    fun x s₁ e hs₁ he ↦ (hentry x s₁ e hs₁ he).2.2.1,
    fun x s₁ e hs₁ he ↦ (hentry x s₁ e hs₁ he).2.2.2⟩

theorem mem_ownedSubtree (h : Spliced b old s spec d d₁) :
    x ∈ d₁.ownedSubtree old ↔ x ∈ d.ownedSubtree old := by
  obtain ⟨n, hn, hp⟩ := isOwnedBy_iff.mp h.owned
  have hl := h.before
  have hlt := lt_nextId hn
  have hlive : d.isLive old := isLive_iff.mpr ⟨n, hn⟩
  have hchildren : ∀ y, old ≤ y → y < d.nextId → d₁.ownedChildren y = d.ownedChildren y := by
    intro y hy hyd
    have hne : y ≠ b := Nat.ne_of_gt (Nat.lt_of_lt_of_le (hl.older old n b hn hp) hy)
    have hentries : d₁.entries y = d.entries y := by
      simp only [entries, h.store y hyd hne]
    rw [ownedChildren, ownedChildren, hentries]
    refine List.filter_congr fun z hz ↦ h.isOwnedBy_eq ?_ y
    obtain ⟨e, he, rfl⟩ := List.mem_map.mp hz
    exact hl.lt_of_mem_entries he
  have hsub := fun fuel ↦ subtree_congr hl.older hchildren hlt fuel
  rw [ownedSubtree, ownedSubtree, if_pos ((h.isLive_eq hlt).trans hlive), if_pos hlive, hsub]
  have hsize : d.nextId ≤ d₁.nodes.size + old :=
    Nat.le_add_right_of_le (Nat.le_of_lt h.nextId_lt)
  exact ⟨subtree_saturated hl.older hlt (Nat.le_add_right _ _),
    subtree_saturated hl.older hlt hsize⟩

end Spliced

section

variable (spec) (h : Linked d) (hs : d.store? b = some s) (hn : d.node? old = some n)
  (hp : n.parent = some b)

include h hs

theorem node?_replaced_of_lt (hx : x < d.nextId) :
    (d.replaced b old n spec).node? x = d.node? x := by
  obtain ⟨-, hext, -⟩ := h.alloc (h.lt_of_store? hs) .toBeAdded spec
  rw [replaced, node?_replaceIn, withSuccessor, node?_modifyNode, if_neg (Nat.ne_of_gt hx),
    hext.node x hx]

include hn

theorem bare_stageReplacement (hx : x < d.nextId) :
    ((d.stageReplacement b old spec).node? x).map Node.bare = (d.node? x).map Node.bare := by
  rw [(alike_stageReplacement h hs hn spec).bare, node?_replaced_of_lt spec h hs hx]

include hp

theorem isScanned_stageReplacement {m : Node}
    (hx : x ∈ (d.stageReplacement b old spec).ownedSubtree d.nextId)
    (hm : (d.stageReplacement b old spec).node? x = some m) : m.IsScanned x := by
  obtain ⟨d₂, hr, heq⟩ := exists_rescans_stageReplacement h (h.lt_of_store? hs) hn spec
  have hle : d.nextId ≤ x := (ownedSubtree_below hx).le (h.stageReplacement hs hn hp spec).older
  rw [heq] at hx hm
  have ha : Alike (d₂.dropEdges old) (((d₂.dropEdges old).recordEdges d.nextId).markModified b) :=
    (Alike.recordEdges _ _).trans (.markModified _ b)
  rw [ha.ownedSubtree] at hx
  have hdrop : Rescans (fun _ ↦ True) d (d₂.dropEdges old) :=
    (hr.mono fun _ _ _ ↦ trivial).trans ((Rescans.dropEdges d₂ old).mono fun _ _ _ ↦ trivial)
  have hscan := (hdrop.recordEdges d.nextId).trans (.markModified _ b)
  rcases hscan x m hm with hnot | hscan | ⟨n₀, hn₀, -⟩
  · exact absurd hx hnot.2
  · exact hscan
  · exact absurd (lt_nextId hn₀) (Nat.not_lt.mpr hle)

variable (hh : n.holders = [])

include hh

theorem store?_stageReplacement_of_ne (hx : x ≠ b) :
    (d.stageReplacement b old spec).store? x = (d.alloc b .toBeAdded spec).store? x := by
  rw [(alike_stageReplacement h hs hn spec).store?, replaced,
    store?_replaceIn (h.holders_nodup hn hp), hh, if_neg (by simpa using hx), withSuccessor,
    store?_modifyNode]

theorem flags_stageReplacement_of_unlent :
    Flags [b] (d.replaced b old n spec) (d.stageReplacement b old spec) := by
  obtain ⟨-, hext, -⟩ := h.alloc (h.lt_of_store? hs) .toBeAdded spec
  have hold : (d.alloc b .toBeAdded spec).node? old = some n :=
    (hext.node old (lt_nextId hn)).trans hn
  have heq : d.stageReplacement b old spec = (((d.replaced b old n spec).dropEdges old).recordEdges
      d.nextId).markModified b := by
    simp only [stageReplacement, putInPlace, node?_modifyStore, hold, Option.map_some,
      Option.getD_some, replaced, withSuccessor, hh, List.foldl_nil]
    rfl
  have hscan : Flags [] (d.replaced b old n spec)
      (((d.replaced b old n spec).dropEdges old).recordEdges d.nextId) :=
    (Flags.dropEdges _ old).trans (.recordEdges _ d.nextId)
  rw [heq]
  exact hscan.trans (.markModified ((h.replaced hs hn hp spec).alike hscan.toAlike).older b)

theorem not_isModified_stageReplacement (hm : ∀ x, ¬ d.isModified x) (hx : x < d.nextId)
    (hb : ¬ Below d x b) : ¬ (d.stageReplacement b old spec).isModified x := fun hmod ↦ by
  have hflags := flags_stageReplacement_of_unlent spec h hs hn hp hh
  obtain ⟨m', hm', hmod⟩ := isModified_iff.mp hmod
  obtain ⟨m, hm₀, -⟩ := hflags.node? hm'
  rcases (hflags.modified x m m' hm₀ hm').mp hmod with hmod | ⟨c, hc, -, hbelow⟩
  · exact hm x (isModified_iff.mpr ⟨m, (node?_replaced_of_lt spec h hs hx).symm.trans hm₀, hmod⟩)
  · obtain rfl := List.mem_singleton.mp hc
    refine hb (below_of_older h.older (h.lt_of_store? hs) (fun y m hy hm ↦ ?_) hbelow)
    exact ⟨m, (node?_replaced_of_lt spec h hs hy).symm.trans hm, rfl⟩

theorem keepsReferences_stageReplacement :
    KeepsReferences d.nextId (d.alloc b .toBeAdded spec) (d.stageReplacement b old spec) where
  node x m _ hm := by
    obtain ⟨m₁, hm₁, hp₁, href₁⟩ : ∃ m₁, (d.replaced b old n spec).node? x = some m₁ ∧
        m₁.parent = m.parent ∧ m₁.references = m.references := by
      rw [replaced, node?_replaceIn, withSuccessor, node?_modifyNode, hm]
      split <;> exact ⟨_, rfl, rfl, rfl⟩
    obtain ⟨m', hm', he⟩ := (alike_stageReplacement h hs hn spec).symm.node? hm₁
    exact ⟨m', hm', (Node.fields_of_bare he).1.symm.trans hp₁,
      (congrArg Node.references he).symm.trans href₁⟩
  entries x hx _ := by
    simp only [entries, store?_stageReplacement_of_ne spec h hs hn hp hh
      (Nat.ne_of_gt (Nat.lt_of_lt_of_le (h.lt_of_store? hs) hx))]

end

/-- A replacement splices its tree in, in the main tree and where nothing had been marked. -/
theorem spliced_stageReplacement (h : Linked d) (hlent : Lent d) (htops : OverlaysApart d)
    (hm : ∀ x, ¬ d.isModified x)
    (hq : ∀ x s e, d.store? x = some s → e ∈ s.entries → e.isStaged = false ∧ e.restore = none)
    (hb : Below d root b) (hs : d.store? b = some s) (hown : d.isOwnedBy old b)
    (hproper : spec.isProper) (hlent' : Lent (d.stageReplacement b old spec)) :
    Spliced b old s spec d (d.stageReplacement b old spec) := by
  obtain ⟨n, hn, hp⟩ := isOwnedBy_iff.mp hown
  have hlt := h.lt_of_store? hs
  have hh : n.holders = [] := by
    by_contra hne
    obtain ⟨p, hp', hnot⟩ := hlent old n hn hne
    rw [hp] at hp'
    cases hp'
    exact hnot hb
  obtain ⟨hl', hext, -⟩ := h.alloc hlt .toBeAdded spec
  have hnum := (Numbered.start h b .toBeAdded).alloc h hlt (Nat.le_refl _) (.inr rfl) spec
  have hlinked := h.stageReplacement hs hn hp spec
  have hstore := fun x ↦ store?_stageReplacement_of_ne (x := x) spec h hs hn hp hh
  have hforth : ∀ y m, d.node? y = some m →
      ∃ m', (d.stageReplacement b old spec).node? y = some m' ∧ m'.parent = m.parent := by
    intro y m hm
    have hbare := bare_stageReplacement spec h hs hn (lt_nextId hm)
    rw [hm] at hbare
    obtain ⟨m', hm', he⟩ := Option.map_eq_some_iff.mp hbare
    exact ⟨m', hm', (Node.fields_of_bare he).1⟩
  have hinside : ListedOnlyInside b old (d.stageReplacement b old spec) := by
    refine hlent'.listedOnlyInside hlinked (hb.mono hforth) (isOwnedBy_iff.mpr ?_)
    exact (hforth old n hn).imp fun _ hm ↦ ⟨hm.1, hm.2.trans hp⟩
  refine ⟨h, hs, hown, hq, hlinked, fun x ↦ bare_stageReplacement spec h hs hn, ?_,
    fun x hx hxb ↦ ?_, fun x s₁ e hx hs₁ he ↦ ?_, ?_,
    fun x hx m ↦ isScanned_stageReplacement spec h hs hn hp hx,
    fun o ho ↦ ?_, hinside⟩
  · rw [(alike_stageReplacement h hs hn spec).store?, store?_replaced h hs hn hp]
  · rw [hstore x hxb, hext.store x hx (Nat.ne_of_lt hx)]
  · rw [hstore x (Nat.ne_of_gt (Nat.lt_of_lt_of_le hlt hx))] at hs₁
    obtain ⟨y, existsInSource, rfl, hy, -⟩ := hnum.entry x s₁ e hx hs₁ he
    exact ⟨hy, existsInSource, rfl⟩
  · exact (represents_alloc h hlt hproper).keepsReferences hl'.older
      (keepsReferences_stageReplacement spec h hs hn hp hh) spec _ (Nat.le_refl _)
  · rw [editKeeps_overlays.stageReplacement h hs hn spec] at ho
    exact not_isModified_stageReplacement spec h hs hn hp hh hm (htops o ho).2.1
      (htops.not_below h ho hb)

end Document

end BuildScript
