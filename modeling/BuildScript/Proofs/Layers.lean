import BuildScript.Proofs.Folding.Block
import BuildScript.Proofs.Folding.Copy
import BuildScript.Proofs.LentInOverlays

namespace BuildScript.Document

variable {Z : NodeId → Prop} {d d' other : Document} {m m' : Merging} {a b c o o' p x y : NodeId}
  {n : Node} {s : Store}

structure InTree (d : Document) (o x : NodeId) : Prop where
  nested : Nested d o x
  top : ∀ n, d.node? o = some n → n.parent = none

namespace InTree

theorem unique (h : InTree d o x) (h' : InTree d o' x) : o = o' := by
  rcases h.nested.toBelow.total h'.nested.toBelow with hb | hb
  · exact (hb.eq_of_top h'.top).symm
  · exact hb.eq_of_top h.top

theorem child (h : InTree d o p) (hn : d.node? x = some n) (hp : n.parent = some p)
    (hs : (d.store? p).isSome) : InTree d o x := by
  obtain ⟨s, hs⟩ := Option.isSome_iff_exists.mp hs
  exact ⟨.step h.nested hn hp hs, h.top⟩

theorem parent (h : InTree d o x) (hn : d.node? x = some n) (hp : n.parent = some p) :
    InTree d o p ∧ (d.store? p).isSome := by
  cases h.nested with
  | refl => simp [h.top n hn] at hp
  | step hnest hn' hp' hs =>
    rw [hn] at hn'
    cases hn'
    rw [hp] at hp'
    cases hp'
    exact ⟨⟨hnest, h.top⟩, by rw [hs]; rfl⟩

theorem above (h : InTree d o x) (hb : Below d y x) : InTree d o y := by
  induction hb with
  | refl => exact h
  | step _ hn hp ih => exact ih (h.parent hn hp).1

theorem upheld (h : InTree d o x) (hl : Linked d) (hl' : Linked d') (hu : Upholds d d')
    (hlt : x < d.nextId) (hx : d'.isLive x) : InTree d' o x where
  nested := hu.nested hl' hx h.nested
  top n' hn' := by
    obtain ⟨n, hn, hp, -⟩ := hu.old o n' (Nat.lt_of_le_of_lt (h.nested.toBelow.le hl.older) hlt) hn'
    exact hp.trans (h.top n hn)

theorem grows (h : InTree m.document o x) (hl : Linked m.document) (hl' : Linked m'.document)
    (hg : Grows Z m m') (hlt : x < m.document.nextId) (hx : m'.document.isLive x) :
    InTree m'.document o x := by
  have hparent : ∀ y n', y < m.document.nextId → m'.document.node? y = some n' →
      ∃ n, m.document.node? y = some n ∧ n'.parent = n.parent := by
    intro y n' hy hn'
    obtain ⟨n, hn, -, -, hp⟩ := node?_of_face? (hg.face y hy).symm hn'
    exact ⟨n, hn, hp.symm⟩
  refine ⟨h.nested.newer hl' (fun y n n' hn hn' ↦ ?_) (fun _ _ p s _ _ hs ↦ hg.stores p (by
    rw [hs]; rfl)) hx, fun n' hn' ↦ ?_⟩
  · obtain ⟨n₀, hn₀, hp⟩ := hparent y n' (lt_nextId hn) hn'
    rw [hn] at hn₀
    cases hn₀
    exact hp
  · obtain ⟨n, hn, hp⟩ := hparent o n'
      (Nat.lt_of_le_of_lt (h.nested.toBelow.le hl.older) hlt) hn'
    exact hp.trans (h.top n hn)

end InTree

/-- A block borrows only from trees that are newer than the one it is part of. -/
def Layered (d : Document) : Prop :=
  ∀ b x n, d.Contains b x → d.node? x = some n → n.parent ≠ some b → ∃ p o o',
    n.parent = some p ∧ (d.store? p).isSome ∧ InTree d o b ∧ InTree d o' p ∧ o < o'

theorem Linked.isLive_of_contains (h : Linked d) (hc : d.Contains b x) : d.isLive b := by
  obtain ⟨s, hs, -⟩ := hc
  obtain ⟨n, hn, -⟩ := h.isContainer_of_store? hs
  exact isLive_iff.mpr ⟨n, hn⟩

namespace Layered

theorem upheld (h : Layered d) (hl : Linked d) (hl' : Linked d') (hu : Upholds d d')
    (hback : ∀ b x n', d'.Contains b x → d'.node? x = some n' → n'.parent ≠ some b →
      ∃ y n, d.Contains b y ∧ d.node? y = some n ∧ n.parent = n'.parent) : Layered d' := by
  intro b x n' hc hn' hne
  obtain ⟨y, n, hc₀, hn, hpar⟩ := hback b x n' hc hn' hne
  obtain ⟨p, o, o', hp, hs, hb, hpo, hlt⟩ := h b y n hc₀ hn (hpar ▸ hne)
  obtain ⟨s, hs⟩ := Option.isSome_iff_exists.mp hs
  have hp' : n'.parent = some p := hpar.symm.trans hp
  have hs' := hu.roof x n' p s hn' hp' hs
  obtain ⟨s', hs''⟩ := Option.isSome_iff_exists.mp hs'
  obtain ⟨m, hm, -⟩ := hl'.isContainer_of_store? hs''
  exact ⟨p, o, o', hp', hs',
    hb.upheld hl hl' hu (hc₀.lt hl).1 (hl'.isLive_of_contains hc),
    hpo.upheld hl hl' hu (hl.lt_of_store? hs) (isLive_iff.mpr ⟨m, hm⟩), hlt⟩

theorem altered {edit : Edit} (h : Layered d) (hl : Linked d) : Layered (edit.run d).2 := by
  have ha := alters hl edit
  have hl' := hl.edit edit
  refine h.upheld hl hl' (.altered hl) fun b x n' ⟨s', hs', hx⟩ hn' hne ↦ ?_
  obtain ⟨e', he', rfl⟩ := List.mem_map.mp hx
  have hold : ∀ s e, d.store? b = some s → e ∈ s.entries → e.node = e'.node →
      ∃ y n, d.Contains b y ∧ d.node? y = some n ∧ n.parent = n'.parent := by
    intro s e hs he hnode
    have hlt := ((hl.store b s hs).links e.node (Store.mem_nodes_of_mem he)).1
    obtain ⟨n, hn, hp, -⟩ := ha.node e'.node n' (hnode ▸ hlt) hn'
    exact ⟨e'.node, n, contains_of_mem hs he hnode, hn, hp.symm⟩
  have howned : ¬ (edit.run d).2.isOwnedBy e'.node b := fun hown ↦
    hne (parent_of_isOwnedBy hown hn')
  cases ha.entry b s' e' hs' he' with
  | kept hs he => exact hold _ _ hs he rfl
  | withdrawn hs he => exact hold _ _ hs he (Entry.withdraw_node _).symm
  | hidden hs he => exact hold _ _ hs he rfl
  | moved hs he => exact hold _ _ hs he (Store.relocated_node _).symm
  | parsed _ _ hown => exact absurd hown howned
  | staged _ _ hown => exact absurd hown howned
  | @replacing block old spec n s e _ hn hp _ hs he hnode _ hown =>
    -- the new node has the place of the old one, also in the blocks that borrow that
    have hpar : n'.parent = _ := parent_of_isOwnedBy hown hn'
    exact ⟨old, n, contains_of_mem hs he hnode, hn, hp.trans hpar.symm⟩

theorem onlyUnstages {C : NodeId → NodeId → Prop} (h : Layered d) (hl : Linked d) (hl' : Linked d')
    (hc : OnlyUnstages C d d') (hu : Upholds d d') : Layered d' := by
  refine h.upheld hl hl' hu fun b x n' hcon hn' _ ↦ ?_
  obtain ⟨n, hn, hp⟩ := hc.node x n' hn'
  exact ⟨x, n, hc.contains hcon, hn, hp.symm⟩

theorem reset (h : Layered d) (hr : FullyTraced d) : Layered d.reset := by
  refine h.upheld hr.linked hr.linked.reset (.reset hr.listsOwned) fun b x n' ⟨s', hs', hx⟩
    hn' _ ↦ ?_
  obtain ⟨e', he', rfl⟩ := List.mem_map.mp hx
  obtain ⟨s, e, hs, he, -, rfl⟩ := mem_reset hr.linked hs' he'
  obtain ⟨n, hn, rfl⟩ := node?_reset hr.linked hn'
  exact ⟨e.node, n, contains_of_mem hs he rfl, hn, rfl⟩

theorem new (id : DocumentId) (config : Config) : Layered (Document.new id config) :=
  fun _ _ _ ⟨_, hs, hx⟩ ↦ absurd hx (not_mem_nodes_new hs)

end Layered

theorem nextId_supersede (d : Document) (source : DocumentId) :
    (d.supersede source).2.nextId = d.nextId := by
  unfold Document.supersede
  split
  · rfl
  · exact (foldl_evict_fields _ _).1

theorem overlays_withOverlay (h : Linked d) (other : Document) :
    (d.withOverlay other).overlays = (d.supersede other.id).2.overlays ++ [d.overlayId other] := by
  refine (withOverlay_induction
    (C := fun d' ↦ d'.overlays = (d.supersede other.id).2.overlays)
    (M := fun d' ↦ d'.overlays = (d.supersede other.id).2.overlays ++ [d.overlayId other]) h other
    rfl (fun _ _ _ _ _ _ _ hov _ _ _ ↦ hov) fun d' _ _ hov ↦ ?_).2.2
  rw [Document.announce, (Alike.recordEdges d' _).overlays, hov]

/-- The overlay of a merge is newer than all that was there. -/
theorem overlaysApart_withOverlay (h : Linked d) (hc : OverlaysApart d)
    (ho : o ∈ (d.withOverlay other).overlays) :
    (o = d.overlayId other ∨ o < d.overlayId other) ∧
      ∀ n, (d.withOverlay other).node? o = some n → n.parent = none := by
  have hf := (withOverlay_spec h other).2
  rw [overlays_withOverlay h] at ho
  rcases List.mem_append.mp ho with ho | ho
  · have hold : o ∈ d.overlays :=
      ((Merged.supersede h other.id).overlay o ho).resolve_right fun ⟨hle, n, hn, _⟩ ↦ by
        have hlt := lt_nextId hn
        rw [nextId_supersede] at hlt
        exact absurd hlt (Nat.not_lt.mpr hle)
    obtain ⟨-, hlt, htop⟩ := hc o hold
    refine ⟨.inr (by rwa [overlayId, nextId_supersede]), fun n' hn' ↦ ?_⟩
    obtain ⟨n, hn, hp, -⟩ := (Follows.withOverlay h other).old o n' hlt hn'
    exact hp.trans (htop n hn).1
  · rw [List.mem_singleton.mp ho]
    refine ⟨.inl rfl, fun n hn ↦ ?_⟩
    obtain ⟨n', hn', hp⟩ := hf.top
    rw [hn] at hn'
    cases hn'
    exact hp

theorem below_of_lent_merge (h : Linked d) (other : Document) :
    ∀ x n, d.overlayId other ≤ x → (d.merge other).2.node? x = some n → n.holders ≠ [] →
      Below (d.merge other).2 (d.overlayId other) x := by
  obtain ⟨hw, hf⟩ := withOverlay_spec h other
  refine (merge_of_withOverlay (M := fun d' ↦ ∀ x n, d.overlayId other ≤ x →
    d'.node? x = some n → n.holders ≠ [] → Below d' (d.overlayId other) x) h other
    ⟨hw, hf, fun x n hx hn hne ↦ absurd (hf.holders x n hx hn) hne⟩ ?_ ?_).2
  · rintro d' b t n p hd hM - hn - - - hb -
    intro x m hx hm hne
    by_cases hxt : x = t
    · exact below_lend.mpr (hxt ▸ hb)
    · obtain ⟨m₀, hm₀, -, hsame⟩ := node?_of_lend hm
      exact below_lend.mpr (hM x m hx (hsame hxt ▸ hm₀) hne)
  · rintro d' b name kind hd hM - x m hx hm hne
    rcases node?_of_enroll hm with ⟨-, rfl⟩ | hm
    · exact absurd rfl hne
    · exact (hM x m hx hm hne).enroll b _

theorem below_withOverlay (h : Linked d) (other : Document) :
    ∀ x n, d.overlayId other ≤ x → (d.withOverlay other).node? x = some n →
      Below (d.withOverlay other) (d.overlayId other) x := by
  refine (withOverlay_induction
    (C := fun d' ↦ ∀ x n, d.overlayId other ≤ x → d'.node? x = some n →
      Below d' (d.overlayId other) x)
    (M := fun d' ↦ ∀ x n, d.overlayId other ≤ x → d'.node? x = some n →
      Below d' (d.overlayId other) x) h other (fun x n hx hn ↦ ?_)
    (fun d' target i n s hd _ hC hle hs _ x m hx hm ↦ ?_) fun d' _ _ hC x m hx hm ↦ ?_).2.2
  · rcases node?_of_push hn with ⟨rfl, -⟩ | hn
    · exact .refl
    · exact absurd (lt_nextId hn) (Nat.not_lt.mpr hx)
  · rcases node?_of_enroll hm with ⟨-, rfl⟩ | hm₀
    · obtain ⟨t, ht, -⟩ := hd.isContainer_of_store? hs
      exact .step ((hC target t hle ht).enroll target _) hm rfl
    · exact (hC x m hx hm₀).enroll target _
  · have ha : Alike d' (d'.recordEdges (d.overlayId other)) := .recordEdges d' _
    obtain ⟨m₀, hm₀, -⟩ := ha.node? (i := x) hm
    refine (ha.below.mpr (hC x m₀ hx hm₀)).mono fun _ k hk ↦ ?_
    exact ⟨k, hk, rfl⟩

/-- What is reached from the root is part of the main tree or of an overlay. -/
theorem LentInOverlays.inTree_of_reaches (hm : LentInOverlays d) (h : Linked d)
    (htop : ∀ o ∈ d.overlays, ∀ n, d.node? o = some n → n.parent = none) (hr : Reaches d root x) :
    ∃ o, (o = root ∨ o ∈ d.overlays) ∧ InTree d o x := by
  induction hr with
  | refl =>
    refine ⟨root, .inl rfl, .refl, fun n hn ↦ ?_⟩
    obtain ⟨m, hm, -, hp, -⟩ := h.root
    rw [hn] at hm
    cases hm
    exact hp
  | @tail p x _ hstep ih =>
    obtain ⟨⟨s, hs, hx⟩, hlive⟩ := hstep
    obtain ⟨n, hn⟩ := isLive_iff.mp hlive
    rcases ((h.store p s hs).links x hx).2 n hn with hp | hh
    · obtain ⟨o, ho, hin⟩ := ih
      exact ⟨o, ho, hin.child hn hp (by rw [hs]; rfl)⟩
    · obtain ⟨o, ho, hnest⟩ := hm x n hn (List.ne_nil_of_mem hh)
      exact ⟨o, .inr ho, hnest, htop o ho⟩

theorem Overlaps.isSome_store? (h : Overlaps d b x y) (hl : Linked d) (hs : (d.store? b).isSome) :
    (d.store? y).isSome := by
  induction h with
  | self => exact hs
  | both _ hblock _ _ _ ih => exact ih (hl.store_of_isBlock hblock)

/-- A document `d` with its overlay in `m₀`, and with the overlay folded into the root in `m`. -/
structure Overlaying (d : Document) (o : NodeId) (m₀ m : Merging) : Prop where
  overlaid : Overlaid o m₀.document
  lentInOverlays : LentInOverlays m₀.document
  older : ∀ o' ∈ m₀.document.overlays, o' = o ∨ o' < o
  top : ∀ o' ∈ m₀.document.overlays, ∀ n, m₀.document.node? o' = some n → n.parent = none
  upholds : Upholds d m₀.document
  after : Linked m.document
  grows : Grows (Overlaps m₀.document root o) m₀ m

theorem Reached.overlaying {allowed : Document → Edit → Prop} (hd : Reached allowed d)
    (other : Document) : ∃ m₀ m, m₀.document = d.withOverlay other ∧ m₀.synthesized = 0 ∧
      m.document = (d.merge other).2 ∧ m.synthesized = (d.merge other).1.synthesized ∧
      Overlaying d (d.overlayId other) m₀ m := by
  have hl := hd.linked
  have hf := (withOverlay_spec hl other).2
  have hrooted := hd.rooted.withOverlay other
  have hup := Upholds.withOverlay hd.fullyTraced.listsOwned other
  have hover : Overlaid (d.overlayId other) (d.withOverlay other) :=
    ⟨hrooted, hf, hrooted.linked.not_below_root (overlayId_ne_root hl other)⟩
  let m₀ : Merging := { d.overlayCopy other with document := d.withOverlay other }
  let m := mergeBlock (d.withOverlay other).nodes.size root (d.overlayId other) m₀
  have hgrows : Grows (Overlaps m₀.document root (d.overlayId other)) m₀ m :=
    (mergeBlock_folds hover _ root (d.overlayId other) m₀ (.inl .refl) .refl (Nat.le_add_right _ _)
      ⟨.refl _ _, rfl, hrooted.linked.store_root⟩).1
  refine ⟨m₀, m, rfl, (copyBlock_counts ..).2, merge_document d other, rfl, hover,
    hd.lentInOverlays.upheld hrooted.linked hd.overlaysApart hup,
    fun o' ho ↦ (overlaysApart_withOverlay hl hd.overlaysApart ho).1,
    fun o' ho ↦ (overlaysApart_withOverlay hl hd.overlaysApart ho).2, hup, ?_, hgrows⟩
  have hafter := hl.merge other
  rwa [merge_document] at hafter

/-- Folding an overlay into the root makes the nodes that the merge reports as synthesized. -/
theorem Reached.nextId_merge {allowed : Document → Edit → Prop} (hd : Reached allowed d)
    (other : Document) : (d.merge other).1.synthesized + (d.withOverlay other).nextId =
      (d.merge other).2.nextId := by
  obtain ⟨m₀, m, hm₀, hzero, hm, hcount, hover⟩ := hd.overlaying other
  have hgrows := hover.grows.synthesized
  rwa [hzero, hcount, hm₀, hm, Nat.zero_add] at hgrows

namespace Overlaying

variable {m₀ : Merging} (h : Overlaying d o m₀ m)

include h

theorem isLive_before (hx : m.document.isLive x) (hlt : x < m₀.document.nextId) :
    m₀.document.isLive x := by
  obtain ⟨n, hn⟩ := isLive_iff.mp hx
  obtain ⟨n', hn', -⟩ := node?_of_face? (h.grows.face x hlt).symm hn
  exact isLive_iff.mpr ⟨n', hn'⟩

theorem node_before (hx : x < m₀.document.nextId) (hn : m.document.node? x = some n) :
    ∃ n₀, m₀.document.node? x = some n₀ ∧ n₀.parent = n.parent := by
  obtain ⟨n₀, hn₀, -, -, hp⟩ := node?_of_face? (h.grows.face x hx).symm hn
  exact ⟨n₀, hn₀, hp⟩

theorem top_after (hn : m.document.node? o = some n) : n.parent = none := by
  obtain ⟨n₀, hn₀, hp⟩ := h.overlaid.fresh.top
  obtain ⟨n₁, hn₁, hp₁⟩ := h.node_before (lt_nextId hn₀) hn
  rw [hn₀] at hn₁
  cases hn₁
  exact hp₁.symm.trans hp

theorem not_below_root (hbelow : ∀ x n, o ≤ x → m₀.document.node? x = some n →
    Below m₀.document o x) (hx : o ≤ x) (hlt : x < m₀.document.nextId)
    (hlive : m.document.isLive x) : ¬ Below m.document root x := by
  intro hroot
  obtain ⟨n, hn⟩ := isLive_iff.mp (h.isLive_before hlive hlt)
  have hb : Below m.document o x := (hbelow x n hx hn).mono fun y k hk ↦ by
    obtain ⟨k', hk', -, -, hp⟩ := node?_of_face? (h.grows.face y (lt_nextId hk)) hk
    exact ⟨k', hk', hp⟩
  have hne : o ≠ root := fun he ↦ h.overlaid.apart (he ▸ .refl)
  rcases hroot.total hb with hb | hb
  · exact hne (hb.eq_of_top fun _ hn ↦ h.top_after hn)
  · exact h.after.not_below_root hne hb

theorem carry (hl : Linked d) (hx : x < d.nextId) (hlive : m.document.isLive x)
    (hin : InTree d o' x) : InTree m.document o' x := by
  obtain ⟨n, hn⟩ := isLive_iff.mp hlive
  have hl₀ := h.overlaid.rooted.linked
  have hlt := Nat.lt_of_lt_of_le hx h.upholds.next
  obtain ⟨n₀, hn₀, -⟩ := h.node_before hlt hn
  exact (hin.upheld hl hl₀ h.upholds hx (isLive_iff.mpr ⟨n₀, hn₀⟩)).grows hl₀ h.after h.grows hlt
    hlive

theorem receives_of_lent (hc : m.document.Contains b x) (hx : o ≤ x)
    (hn : m.document.node? x = some n) (hne : n.parent ≠ some b) :
    Overlaps m₀.document root o b ∨ m₀.document.nextId ≤ b := by
  by_contra hnot
  obtain ⟨hover, hlt⟩ := not_or.mp hnot
  have hl₀ := h.overlaid.rooted.linked
  obtain ⟨s, hs, hmem⟩ := hc
  rw [h.grows.store b (Nat.lt_of_not_le hlt) hover] at hs
  obtain ⟨hx₀, hlinks⟩ := (hl₀.store b s hs).links x hmem
  obtain ⟨n₀, hn₀, hp⟩ := h.node_before hx₀ hn
  rcases hlinks n₀ hn₀ with hpar | hh
  · exact hne (hp.symm.trans hpar)
  · simp [h.overlaid.fresh.holders x n₀ hx hn₀] at hh

theorem lt_overlay (hr : Reaches m₀.document root x) (ho : o' = root ∨ o' ∈ m₀.document.overlays)
    (hin : InTree m₀.document o' x) : o' < o := by
  have hnot := h.overlaid.not_below (.inl .refl) hr
  rcases ho with rfl | ho
  · have hroot : o ≠ root := fun he ↦ h.overlaid.apart (he ▸ .refl)
    exact Nat.pos_of_ne_zero hroot
  · exact (h.older o' ho).resolve_left fun he ↦ hnot (he ▸ hin.nested.toBelow)

/-- A block that something is folded into is part of an older tree than the overlay. -/
theorem receiver (hb : b < m.document.nextId)
    (hr : Overlaps m₀.document root o b ∨ m₀.document.nextId ≤ b) :
    ∃ o', o' < o ∧ InTree m.document o' b ∧ (m.document.store? b).isSome := by
  have hl := h.overlaid.rooted.linked
  induction b using Nat.strongRecOn with
  | ind b ih =>
    rcases hr with hr | hle
    · obtain ⟨o', ho', hin⟩ := h.lentInOverlays.inTree_of_reaches hl h.top hr.reaches
      obtain ⟨r, hroot, -⟩ := hl.root
      have hlt := hr.reaches.lt (lt_nextId hroot)
      have hstore := h.grows.stores b (hr.isSome_store? hl hl.store_root)
      obtain ⟨s, hs⟩ := Option.isSome_iff_exists.mp hstore
      obtain ⟨n, hn, -⟩ := h.after.isContainer_of_store? hs
      exact ⟨o', h.lt_overlay hr.reaches ho' hin,
        hin.grows hl h.after h.grows hlt (isLive_iff.mpr ⟨n, hn⟩), hstore⟩
    · obtain ⟨n, p, hn, hblock, hp, hor⟩ := h.grows.made b hle hb
      have hpb := h.after.older b n p hn hp
      obtain ⟨o', ho', hin, hs⟩ := ih p hpb (Nat.lt_trans hpb hb) hor
      exact ⟨o', ho', hin.child hn hp hs, h.after.store_of_isBlock (by rw [hn]; exact hblock)⟩

theorem old_loan (hd : Layered d) (hl : Linked d) (hc : d.Contains b x)
    (hb : m.document.isLive b) (hn : m.document.node? x = some n) (hne : n.parent ≠ some b) :
    ∃ p o₁ o₂, n.parent = some p ∧ (m.document.store? p).isSome ∧ InTree m.document o₁ b ∧
      InTree m.document o₂ p ∧ o₁ < o₂ := by
  obtain ⟨hb₀, hx₀⟩ := hc.lt hl
  obtain ⟨n₁, hn₁, hpar₁⟩ := h.node_before (Nat.lt_of_lt_of_le hx₀ h.upholds.next) hn
  obtain ⟨n₀, hn₀, hpar, -⟩ := h.upholds.old x n₁ hx₀ hn₁
  have hsame : n.parent = n₀.parent := hpar₁.symm.trans hpar
  obtain ⟨p, o₁, o₂, hp, hsome, hbo, hpo, hlt⟩ := hd b x n₀ hc hn₀ (hsame ▸ hne)
  obtain ⟨t, ht⟩ := Option.isSome_iff_exists.mp hsome
  have hstore := h.grows.stores p (h.upholds.roof x n₁ p t hn₁ (hpar.trans hp) ht)
  obtain ⟨t', ht'⟩ := Option.isSome_iff_exists.mp hstore
  obtain ⟨q, hq, -⟩ := h.after.isContainer_of_store? ht'
  exact ⟨p, o₁, o₂, hsame.trans hp, hstore, h.carry hl hb₀ hb hbo,
    h.carry hl (hl.lt_of_store? ht) (isLive_iff.mpr ⟨q, hq⟩) hpo, hlt⟩

theorem new_loan (hlentIn : LentInOverlays m.document) (htops : OverlaysApart m.document)
    (hbelow : Below m.document o x) (hc : m.document.Contains b x) (hx : o ≤ x)
    (hn : m.document.node? x = some n) (hp : n.parent = some p) (hne : p ≠ b)
    (hlent : n.holders ≠ []) :
    ∃ o₁ o₂, (m.document.store? p).isSome ∧ InTree m.document o₁ b ∧
      InTree m.document o₂ p ∧ o₁ < o₂ := by
  obtain ⟨o₂, ho₂, hnest⟩ := hlentIn x n hn hlent
  have hin : InTree m.document o₂ x := ⟨hnest, fun q hq ↦ ((htops o₂ ho₂).2.2 q hq).1⟩
  have htop : o = o₂ :=
    (hin.above hbelow).nested.toBelow.eq_of_top fun _ hq ↦ h.top_after hq
  obtain ⟨hpin, hps⟩ := hin.parent hn hp
  have hne' : n.parent ≠ some b := fun he ↦ hne (Option.some.inj (hp.symm.trans he))
  obtain ⟨o₁, ho₁, hbin, -⟩ :=
    h.receiver (hc.lt h.after).1 (h.receives_of_lent hc hx hn hne')
  exact ⟨o₁, o₂, hps, hbin, hpin, htop ▸ ho₁⟩

end Overlaying

theorem Layered.merge {allowed : Document → Edit → Prop} (h : Layered d) (hd : Reached allowed d)
    (other : Document) : Layered (d.merge other).2 := by
  have hd' : Reached allowed (d.merge other).2 := .merge other hd
  have hl := hd.linked
  have hmerged := merged hl other
  have hbelow := below_of_lent_merge hl other
  obtain ⟨m₀, m, -, -, hm, -, hover⟩ := hd.overlaying other
  rw [← hm] at hd' hmerged hbelow ⊢
  rintro b x n ⟨s, hs, hx⟩ hn hne
  have hb : m.document.isLive b := hd'.linked.isLive_of_contains ⟨s, hs, hx⟩
  obtain ⟨e, he, rfl⟩ := List.mem_map.mp hx
  rcases hmerged.entry b s e hs he with ⟨s₀, hs₀, he₀⟩ | ⟨x, hle, ⟨rfl, hown⟩ | ⟨rfl, k, hk, hh⟩⟩
  · exact hover.old_loan h hl (contains_of_mem hs₀ he₀ rfl) hb hn hne
  · exact absurd (parent_of_isOwnedBy hown hn) hne
  · have hn' : m.document.node? x = some n := hn
    rw [hk] at hn'
    cases hn'
    have hlent := List.ne_nil_of_mem hh
    have hx : d.overlayId other ≤ x := by rwa [overlayId, nextId_supersede]
    obtain ⟨p, hp, -⟩ := hd'.lent x n hk hlent
    obtain ⟨o₁, o₂, hrest⟩ :=
      hover.new_loan hd'.lentInOverlays hd'.overlaysApart (hbelow x n hx hk hlent)
      (contains_of_mem hs he rfl) hx hk hp (fun hpb ↦ hne (hpb ▸ hp)) hlent
    exact ⟨p, o₁, o₂, hp, hrest⟩

theorem Reached.layered {allowed : Document → Edit → Prop} (hd : Reached allowed d) :
    Layered d := by
  induction hd with
  | new id config => exact .new id config
  | edit edit hd _ ih => exact ih.altered hd.linked
  | reset hd ih => exact ih.reset hd.fullyTraced
  | apply w s hd ih =>
    exact ih.onlyUnstages hd.linked (hd.linked.apply w s) (.apply hd.linked w s)
      (.apply hd.fullyTraced w s)
  | merge other hd ih => exact ih.merge hd other
  | takeDiagnostics hd ih =>
    refine ih.upheld hd.linked (hd.linked.of_tables rfl rfl hd.linked.sources)
      ⟨.congr_nodes rfl, fun x n p s _ _ hs ↦ ?_, fun _ ho _ _ ↦ ho⟩
      fun b x n hc hn _ ↦ ⟨x, n, hc, hn, rfl⟩
    exact (congrArg Option.isSome hs).trans rfl

namespace Layered

/-- On the way down from a block one never comes to an older tree. -/
theorem le_of_reaches (h : Layered d) (ha : InTree d o a) (hr : Reaches d a c) :
    ∃ o', o ≤ o' ∧ InTree d o' c := by
  induction hr with
  | refl => exact ⟨o, Nat.le_refl o, ha⟩
  | @tail q y _ hstep ih =>
    obtain ⟨o₁, hle, hq⟩ := ih
    obtain ⟨n, hn⟩ := isLive_iff.mp hstep.2
    by_cases hp : n.parent = some q
    · obtain ⟨s, hs, -⟩ := hstep.1
      exact ⟨o₁, hle, hq.child hn hp (by rw [hs]; rfl)⟩
    · obtain ⟨p, o₂, o₃, hp, hs, hq', hin, hlt⟩ := h q y n hstep.1 hn hp
      obtain rfl := hq.unique hq'
      exact ⟨o₃, Nat.le_trans hle (Nat.le_of_lt hlt), hin.child hn hp hs⟩

theorem eq_of_contains (h : Layered d) (hn : d.node? x = some n) (hp : n.parent = some p)
    (ha : Below d a p) (hr : Reaches d a c) (hc : d.Contains c x) : c = p := by
  by_contra hne
  have hnot : n.parent ≠ some c := fun he ↦ hne (Option.some.inj (he.symm.trans hp))
  obtain ⟨q, o, o', hq, -, hco, hqo, hlt⟩ := h c x n hc hn hnot
  rw [hp] at hq
  cases hq
  obtain ⟨o₁, hle, hco'⟩ := h.le_of_reaches (hqo.above ha) hr
  obtain rfl := hco.unique hco'
  exact absurd hlt (Nat.not_lt.mpr hle)

end Layered

end BuildScript.Document
