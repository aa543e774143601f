import BuildScript.Proofs.Unstaged

namespace BuildScript.Document

variable {D U : NodeId → Prop} {ov l : List NodeId} {d d' d'' : Document} {a b x : NodeId}
  {n : Node} {s : Store}

/-- `d'` comes after `d`: what is lent takes the place of something that was, the store around a
node stays as long as the node does, and an overlay is on the list as long as it lives. -/
structure Upholds (d d' : Document) : Prop extends Follows d d' where
  roof : ∀ x n p s, d'.node? x = some n → n.parent = some p → d.store? p = some s →
    (d'.store? p).isSome
  overlays : ∀ o ∈ d.overlays, o < d.nextId → d'.isLive o → o ∈ d'.overlays

/-- A node that stays is nested where it was if the stores around it stay. -/
theorem Nested.newer (h' : Linked d')
    (hparent : ∀ x n n', d.node? x = some n → d'.node? x = some n' → n'.parent = n.parent)
    (hroof : ∀ x n p s, d'.node? x = some n → n.parent = some p → d.store? p = some s →
      (d'.store? p).isSome) (hx : d'.isLive x) (h : Nested d a x) : Nested d' a x := by
  induction h with
  | refl => exact .refl
  | @step p x n s _ hn hp hs ih =>
    obtain ⟨n', hn'⟩ := isLive_iff.mp hx
    have hp' := (hparent x n n' hn hn').trans hp
    obtain ⟨s', hs'⟩ := Option.isSome_iff_exists.mp (hroof x n' p s hn' hp' hs)
    obtain ⟨m, hm, -⟩ := h'.isContainer_of_store? hs'
    exact .step (ih (isLive_iff.mpr ⟨m, hm⟩)) hn' hp' hs'

theorem Upholds.nested (hu : Upholds d d') (h' : Linked d') (hx : d'.isLive x)
    (h : Nested d a x) : Nested d' a x := by
  refine h.newer h' (fun y n n' hn hn' ↦ ?_) hu.roof hx
  obtain ⟨n₀, hn₀, hp, -⟩ := hu.old y n' (lt_nextId hn) hn'
  rw [hn] at hn₀
  cases hn₀
  exact hp

def KeepsStores (d d' : Document) : Prop := ∀ p, (d.store? p).isSome → (d'.store? p).isSome

namespace KeepsStores

theorem modifyStore (d : Document) (b : NodeId) (f : Store → Store) :
    KeepsStores d (d.modifyStore b f) := by
  intro p hp
  rw [store?_modifyStore]
  split <;> simpa

theorem editKeeps : EditKeeps KeepsStores where
  trans h h' p hp := h' p (h p hp)
  alike ha p hp := by rwa [ha.store?]
  extend h hext p hp := by
    obtain ⟨t, ht⟩ := Option.isSome_iff_exists.mp hp
    have hlt := h.lt_of_store? ht
    rwa [hext.store p hlt (Nat.ne_of_lt hlt)]
  modifyStore := modifyStore
  setHolders _ _ _ _ hp := hp
  setPending _ _ _ _ hp := hp

end KeepsStores

/-- When nodes go together with all that they own, a node that stays keeps the store around it. -/
theorem Detached.store?_parent_isSome {p : NodeId} (hd : Detached U d l) (h : ListsOwned D ov U d)
    (hn : (l.foldl evict d).node? x = some n) (hp : n.parent = some p) (hs : d.store? p = some s) :
    ((l.foldl evict d).store? p).isSome := by
  obtain ⟨hx, hn⟩ := node?_of_foldl_evict hn
  have hmem := (h.listed x n p s hn hp hs).resolve_left fun hU ↦ hx (hd.unlisted x n hn hU)
  have hpl : p ∉ l := fun hpl ↦
    hx (hd.closed p hpl x (mem_ownedChildren.mpr ⟨⟨s, hs, hmem⟩, n, hn, hp⟩))
  obtain ⟨s', hs', -⟩ := mem_store?_foldl_evict hs hpl h.linked.distinct
  rw [hs']
  rfl

namespace Upholds

theorem altered {edit : Edit} (h : Linked d) : Upholds d (edit.run d).2 where
  toFollows := .altered (alters h edit)
  roof x n p s _ _ hs := KeepsStores.editKeeps.edit h edit p (by rw [hs]; rfl)
  overlays o ho _ _ := by rwa [overlays_run h edit]

theorem reset (h : ListsOwned D ov (fun _ ↦ False) d) : Upholds d d.reset where
  toFollows := .reset h.linked
  roof x n' p s hn' hp hs := by
    obtain ⟨l, he, hdet, -⟩ := Detached.reset h.linked
    rw [reset_eq, he] at hn' ⊢
    rw [node?_settleNodes] at hn'
    obtain ⟨n, hn, rfl⟩ := Option.map_eq_some_iff.mp hn'
    exact hdet.store?_parent_isSome h.resetStores hn hp (by rw [store?_resetStores, hs]; rfl)
  overlays o ho _ _ := by rwa [overlays_reset h.linked]

theorem apply {σ : Type} (h : FullyTraced d) (w : Writer σ) (st : σ) :
    Upholds d (d.apply w st).document := by
  have hc := OnlyUnstages.apply h.linked w st
  -- the nodes that are known to have a store around them keep it
  obtain ⟨ht', -⟩ := h.kin_known.apply w st
  refine ⟨.inherits hc.toInherits fun x n n' hn hn' ↦ (hc.calm x n n' hn hn').1,
    fun x n' p s hn' hp hs ↦ ?_, fun o ho _ _ ↦ hc.overlays ▸ ho⟩
  obtain ⟨n, hn, hpar⟩ := hc.node x n' hn'
  by_contra hnone
  have hgone := ht'.kin x n' p hn' hp (Option.not_isSome_iff_eq_none.mp hnone) n p hn (hpar ▸ hp)
  simp [hs] at hgone

theorem supersede (h : ListsOwned D d.overlays (fun _ ↦ False) d) (source : DocumentId) :
    Upholds d (d.supersede source).2 where
  toFollows := .supersede d source
  roof x n p s hn hp hs := by
    unfold Document.supersede at hn ⊢
    split at hn
    · simp [hs]
    · next o hlookup =>
      obtain ⟨l₁, l₂, hsources, -⟩ := List.lookup_eq_some_iff.mp hlookup
      have hmem : (source, o) ∈ d.overlaySources := by simp [hsources]
      have hforget : ListsOwned D d.overlays (fun _ ↦ False) { d with
          overlaySources := d.overlaySources.filter (·.1 != source)
          overlays := d.overlays.filter (· != o) } :=
        h.of_tables (h.linked.of_tables rfl rfl fun p hp ↦
          h.linked.sources p (List.mem_filter.mp hp).1) rfl rfl fun q hq ↦
          h.source q (List.mem_filter.mp hq).1
      exact (Detached.tree hforget.linked (h.linked.sources _ hmem)
        (h.source _ hmem).2).store?_parent_isSome hforget hn hp hs
  overlays o ho _ hlive := by
    unfold Document.supersede at hlive ⊢
    split at hlive
    · exact ho
    · next o' _ =>
      dsimp only [Document.release]
      rw [(foldl_evict_fields _ _).2.2.1]
      refine List.mem_filter.mpr ⟨ho, ?_⟩
      by_contra heq
      obtain rfl : o = o' := by simpa using heq
      obtain ⟨n, hn⟩ := isLive_iff.mp hlive
      exact absurd ((node?_release_self _ o).symm.trans hn) nofun

theorem enroll (hu : Upholds d d') (h' : Linked d') (hs : d'.store? b = some s)
    (hp : n.parent = some b) (hh : n.holders = []) : Upholds d (d'.enroll b n) where
  toFollows := hu.toFollows.trans (.enroll hh)
  roof x m p t hm hpar ht := by
    refine store?_enroll_isSome h' b n ?_
    rcases node?_of_enroll hm with ⟨-, rfl⟩ | hm
    · rw [hp] at hpar
      cases hpar
      rw [hs]
      rfl
    · exact hu.roof x m p t hm hpar ht
  overlays o ho hlt hlive := by
    refine hu.overlays o ho hlt ?_
    have hne := Nat.ne_of_lt (Nat.lt_of_lt_of_le hlt hu.next)
    rwa [isLive, node?_enroll, if_neg hne] at hlive

theorem announce {source : DocumentId} {o : NodeId} (hu : Upholds d d') :
    Upholds d ((d'.recordEdges o).announce source o) := by
  have ha : Alike d' (d'.recordEdges o) := .recordEdges d' o
  refine ⟨(hu.toFollows.trans (.alike ha)).trans (.congr_nodes rfl), fun x n p s hn hp hs ↦ ?_,
    fun o' ho hlt hlive ↦ ?_⟩
  · obtain ⟨n₀, hn₀, he⟩ := ha.node? hn
    obtain ⟨hpar, -⟩ := Node.fields_of_bare he
    have hsome := hu.roof x n₀ p s hn₀ (hpar.symm.trans hp) hs
    rwa [← ha.store?] at hsome
  · obtain ⟨n, hn⟩ := isLive_iff.mp hlive
    obtain ⟨n₀, hn₀, -⟩ := ha.node? hn
    refine List.mem_append_left _ ?_
    rw [ha.overlays]
    exact hu.overlays o' ho hlt (isLive_iff.mpr ⟨n₀, hn₀⟩)

theorem withOverlay (h : ListsOwned D d.overlays (fun _ ↦ False) d) (other : Document) :
    Upholds d (d.withOverlay other) := by
  have hsup := h.linked.supersede other.id
  have hu := supersede h other.id
  refine (withOverlay_induction (C := Upholds d) (M := Upholds d) h.linked other ?_
    (fun d' b i n s hd _ hu _ hs _ ↦ hu.enroll hd hs rfl rfl) fun _ _ _ hu ↦ hu.announce).2.2
  refine ⟨hu.toFollows.trans (.push rfl), fun x n p s hn hp hs ↦ ?_, fun o ho hlt hlive ↦ ?_⟩
  · rcases node?_of_push hn with ⟨-, rfl⟩ | hn
    · simp [overlayNode] at hp
    · have hsome := hu.roof x n p s hn hp hs
      obtain ⟨t, ht⟩ := Option.isSome_iff_exists.mp hsome
      rwa [store?_push hsup.sizes, if_neg (Nat.ne_of_lt (hsup.lt_of_store? ht))]
  · refine hu.overlays o ho hlt ?_
    rwa [isLive, node?_push, if_neg (Nat.ne_of_lt (Nat.lt_of_lt_of_le hlt hu.next))] at hlive

end Upholds

def LentInOverlays (d : Document) : Prop :=
  ∀ x n, d.node? x = some n → n.holders ≠ [] → ∃ o ∈ d.overlays, Nested d o x

/-- From `o` on every node that has a parent has a store around it. -/
def HasStoresAbove (o : NodeId) (d : Document) : Prop :=
  ∀ x n p, o ≤ x → d.node? x = some n → n.parent = some p → (d.store? p).isSome

namespace HasStoresAbove

variable {o t : NodeId}

theorem nested (h : HasStoresAbove o d) (hl : Linked d) (hb : Below d o x) : Nested d o x := by
  induction hb with
  | refl => exact .refl
  | @step p x n hb hn hp ih =>
    obtain ⟨s, hs⟩ := Option.isSome_iff_exists.mp
      (h x n p ((Below.step hb hn hp).le hl.older) hn hp)
    exact .step ih hn hp hs

theorem enroll (h : HasStoresAbove o d) (hl : Linked d) (hs : (d.store? b).isSome)
    (hp : n.parent = some b) : HasStoresAbove o (d.enroll b n) := by
  intro x m p hx hm hpar
  refine store?_enroll_isSome hl b n ?_
  rcases node?_of_enroll hm with ⟨-, rfl⟩ | hm
  · rw [hp] at hpar
    cases hpar
    exact hs
  · exact h x m p hx hm hpar

theorem alike (h : HasStoresAbove o d) (ha : Alike d d') : HasStoresAbove o d' := by
  intro x n p hx hn hp
  obtain ⟨n₀, hn₀, he⟩ := ha.node? hn
  rw [ha.store?]
  exact h x n₀ p hx hn₀ ((Node.fields_of_bare he).1.symm.trans hp)

theorem lend (h : HasStoresAbove o d) : HasStoresAbove o (d.lend b t) := by
  intro x m p hx hm hp
  obtain ⟨m₀, hm₀, hpar, -⟩ := node?_of_lend hm
  have hsome := h x m₀ p hx hm₀ (hpar.symm.trans hp)
  rw [store?_lend]
  split <;> simpa

theorem withOverlay (h : Linked d) (other : Document) :
    HasStoresAbove (d.overlayId other) (d.withOverlay other) := by
  refine (withOverlay_induction (C := HasStoresAbove (d.overlayId other))
    (M := HasStoresAbove (d.overlayId other)) h other (fun x n p hx hn hp ↦ ?_)
    (fun d' b i n s hd _ hcov _ hs _ ↦ hcov.enroll hd (by rw [hs]; rfl) rfl)
    fun d' _ _ hcov x n p hx hn hp ↦ hcov.alike (.recordEdges d' _) x n p hx hn hp).2.2
  rcases node?_of_push hn with ⟨-, rfl⟩ | hn
  · simp [overlayNode] at hp
  · exact absurd (lt_nextId hn) (Nat.not_lt.mpr hx)

end HasStoresAbove

namespace LentInOverlays

theorem upheld (h : LentInOverlays d) (hl' : Linked d') (hc : OverlaysApart d) (hu : Upholds d d') :
    LentInOverlays d' := by
  intro x n' hn' hne
  obtain ⟨y, n, hn, hpar, hh⟩ := hu.held x n' hn' hne
  obtain ⟨o, ho, hnest⟩ := h y n hn (hh ▸ hne)
  obtain ⟨-, hlt, htop⟩ := hc o ho
  cases hnest with
  | refl =>
    refine absurd (htop n hn).2 ?_
    rwa [← hh]
  | @step p _ m s hnest hm hp hs =>
    rw [hn] at hm
    cases hm
    obtain ⟨s', hs'⟩ := Option.isSome_iff_exists.mp (hu.roof x n' p s hn' (hpar.trans hp) hs)
    obtain ⟨m, hm, -⟩ := hl'.isContainer_of_store? hs'
    have hnest' : Nested d' o p := hu.nested hl' (isLive_iff.mpr ⟨m, hm⟩) hnest
    refine ⟨o, hu.overlays o ho hlt ?_, .step hnest' hn' (hpar.trans hp) hs'⟩
    rcases hnest'.eq_or_child with rfl | ⟨_, _, t, _, _, ht, _⟩
    · exact isLive_iff.mpr ⟨m, hm⟩
    · obtain ⟨k, hk, -⟩ := hl'.isContainer_of_store? ht
      exact isLive_iff.mpr ⟨k, hk⟩

/-- An overlay stays where it is while it is folded into the root, and only what is nested in it is
lent. -/
theorem merge (h : LentInOverlays d) (hh : ListsOwned D d.overlays (fun _ ↦ False) d)
    (hc : OverlaysApart d) (other : Document) : LentInOverlays (d.merge other).2 := by
  obtain ⟨hw, hf⟩ := withOverlay_spec hh.linked other
  have hover : d.overlayId other ∈ (d.withOverlay other).overlays := by
    simp [Document.withOverlay, Document.announce]
  refine (merge_of_withOverlay (M := fun d' ↦ LentInOverlays d' ∧ d.overlayId other ∈ d'.overlays ∧
      HasStoresAbove (d.overlayId other) d') hh.linked other
    ⟨hw, hf, h.upheld hw hc (.withOverlay hh other), hover, .withOverlay hh.linked other⟩
    ?_ ?_).2.1
  · rintro d' b t n p hd ⟨hM, ho, hcov⟩ - hn hempty hp hne hb -
    have hl := hd.lend hn hp hne hempty
    have hkeep : ∀ {o y}, (d'.lend b t).isLive y → Nested d' o y → Nested (d'.lend b t) o y :=
      fun {o y} hlive ↦ Nested.newer hl (fun z m m' hm hm' ↦ by
        obtain ⟨m₀, hm₀, hpar, -⟩ := node?_of_lend hm'
        rw [hm] at hm₀
        cases hm₀
        exact hpar) (fun z m q s _ _ hs ↦ by
        rw [store?_lend, hs]
        split <;> rfl) hlive
    refine ⟨fun x m hm hheld ↦ ?_, ho, hcov.lend⟩
    have hlive : (d'.lend b t).isLive x := isLive_iff.mpr ⟨m, hm⟩
    by_cases hx : x = t
    · exact ⟨_, ho, hkeep hlive (hx ▸ hcov.nested hd hb)⟩
    · rw [node?_lend, if_neg (Ne.symm hx)] at hm
      obtain ⟨o, ho', hnest⟩ := hM x m hm hheld
      exact ⟨o, ho', hkeep hlive hnest⟩
  · rintro d' b name kind hd ⟨hM, ho, hcov⟩ hs
    obtain ⟨s, hs'⟩ := Option.isSome_iff_exists.mp hs
    have hl : Linked (d'.enroll b (emptyBlock b name kind)) := hd.enroll hs' rfl rfl rfl
    refine ⟨fun x m hm hheld ↦ ?_, ho, hcov.enroll hd hs rfl⟩
    have hlive : (d'.enroll b (emptyBlock b name kind)).isLive x := isLive_iff.mpr ⟨m, hm⟩
    rcases node?_of_enroll hm with ⟨-, rfl⟩ | hm
    · exact absurd rfl hheld
    · obtain ⟨o, ho', hnest⟩ := hM x m hm hheld
      refine ⟨o, ho', hnest.newer hl (fun z k k' hk hk' ↦ ?_) (fun z k q t _ _ ht ↦ ?_) hlive⟩
      · rw [node?_enroll_of_some hk] at hk'
        cases hk'
        rfl
      · exact store?_enroll_isSome hd b _ (by rw [ht]; rfl)

end LentInOverlays

theorem Reached.lentInOverlays {allowed : Document → Edit → Prop} (hd : Reached allowed d) :
    LentInOverlays d := by
  induction hd with
  | new id config => exact fun x n hn hne ↦ absurd (Reached.holders_new hn) hne
  | @edit d edit hd _ ih =>
    exact ih.upheld (hd.linked.edit edit) hd.overlaysApart (.altered hd.linked)
  | reset hd ih =>
    exact ih.upheld hd.linked.reset hd.overlaysApart (.reset hd.fullyTraced.listsOwned)
  | apply w s hd ih =>
    exact ih.upheld (hd.linked.apply w s) hd.overlaysApart (.apply hd.fullyTraced w s)
  | merge other hd ih => exact ih.merge hd.fullyTraced.listsOwned hd.overlaysApart other
  | takeDiagnostics hd ih =>
    refine ih.upheld (hd.linked.of_tables rfl rfl hd.linked.sources) hd.overlaysApart
      ⟨.congr_nodes rfl, fun x n p s _ _ hs ↦ ?_, fun _ ho _ _ ↦ ho⟩
    exact (congrArg Option.isSome hs).trans rfl

end BuildScript.Document
