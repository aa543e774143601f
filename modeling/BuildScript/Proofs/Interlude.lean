import BuildScript.Proofs.CanonicalOrder
import BuildScript.Proofs.Operation
import BuildScript.Proofs.Remerge

namespace BuildScript.Document

variable {D X X' later : Document} {p₀ p : Merging} {c o s x : NodeId} {en : Entry}

theorem Linked.lt_of_mem_inState (h : Linked D) {state : EntryState} (hx : x ∈ D.inState c state) :
    x < D.nextId := by
  obtain ⟨s, hs, en, hen, -, rfl⟩ := mem_inState.mp hx
  exact h.lt_of_mem_entries (entries_eq hs ▸ hen)

theorem mem_lineage_iff_below (h : Linked D) (ho : D.isLive o) : o ∈ D.lineage x ↔ Below D o x := by
  rw [mem_lineage h.older]
  exact ⟨fun hx ↦ hx.2.2, fun hb ↦ ⟨hb.isLive ho, ho, hb⟩⟩

namespace KeepsOverlay

theorem own_before (h : KeepsOverlay o X X') (hX : Linked X) (hc : c < X.nextId)
    (hb : ¬ Below X' o c) (hen : en ∈ X'.entries c) (hnode : Below X' o en.node) :
    ∃ en' ∈ X.entries c, Below X o en'.node := by
  by_cases hst : en.state = .applied
  · obtain ⟨extra, hextra, hnew⟩ := h.loans c hc hb
    have hmem : en.node ∈ X'.inState c .applied := by
      obtain ⟨st, hs, hen⟩ := mem_entries.mp hen
      exact mem_inState.mpr ⟨st, hs, en, hen, hst, rfl⟩
    rw [hextra] at hmem
    rcases List.mem_append.mp hmem with hmem | hmem
    · obtain ⟨st, hs, en', hen', -, he⟩ := mem_inState.mp hmem
      have hold := mem_entries.mpr ⟨st, hs, hen'⟩
      exact ⟨en', hold, h.below_before hX.older (hX.lt_of_mem_entries hold) (he ▸ hnode)⟩
    · exact absurd hnode (hnew _ hmem).2
  · have hold := h.own c hc hb en hen hst hnode
    exact ⟨en, hold, h.below_before hX.older (hX.lt_of_mem_entries hold) hnode⟩

theorem trans (h : KeepsOverlay o D X) (h' : KeepsOverlay o X X') (hX : Linked X) :
    KeepsOverlay o D X' where
  toContinues := h.toContinues.trans h'.toContinues
  overlay x hb hlive := h'.overlay x (h.below_after hb) (h.overlay x hb hlive)
  own c hc hb en hen hst hnode := by
    have hold := h'.own c (Nat.lt_of_lt_of_le hc h.next) hb en hen hst hnode
    exact h.own c hc (mt h'.below_after hb) en hold hst
      (h'.below_before hX.older (hX.lt_of_mem_entries hold) hnode)
  loans c hc hb := by
    obtain ⟨extra, hextra, hnode⟩ := h.loans c hc (mt h'.below_after hb)
    obtain ⟨extra', hextra', hnode'⟩ := h'.loans c (Nat.lt_of_lt_of_le hc h.next) hb
    refine ⟨extra ++ extra', by rw [hextra', hextra, List.append_assoc], fun x hx ↦ ?_⟩
    rcases List.mem_append.mp hx with hx | hx
    · have hlt := hX.lt_of_mem_inState (hextra ▸ List.mem_append_right _ hx)
      exact ⟨(hnode x hx).1, fun hbx ↦ (hnode x hx).2 (h'.below_before hX.older hlt hbx)⟩
    · exact ⟨Nat.le_trans h.next (hnode' x hx).1, (hnode' x hx).2⟩
  live c hc hb x hx hlive := by
    obtain ⟨extra, hextra, -⟩ := h.loans c hc (mt h'.below_after hb)
    exact h'.live c (Nat.lt_of_lt_of_le hc h.next) hb x (hextra ▸ List.mem_append_left _ hx)
      (h.live c hc (mt h'.below_after hb) x hx hlive)
  later c hc hb en hen hnode := by
    by_cases hold : c < X.nextId
    · obtain ⟨en', hen', hnode'⟩ := h'.own_before hX hold hb hen hnode
      exact h.later c hc (mt h'.below_after hb) en' hen' hnode'
    · exact h'.later c (Nat.not_lt.mp hold) hb en hen hnode
  listed hl := h'.listed (h.listed hl)

end KeepsOverlay

/-- The overlay `o` of `D` is still there as a whole: its nodes live and have stores around them,
other blocks list nothing of it but what they had borrowed, and they have that in front of what they
have borrowed since. -/
structure OverlayIntact (o : NodeId) (D X : Document) : Prop where
  live : ∀ x < D.nextId, o ∈ D.lineage x → X.isLive x
  stored : ∀ x < X.nextId, o ∈ X.lineage x → ∀ n ∈ X.node? x, ∀ p ∈ n.parent, (X.store? p).isSome
  own : ∀ c < X.nextId, o ∉ X.lineage c → ∀ en ∈ X.entries c, o ∈ X.lineage en.node →
    en.state = .applied ∧ en.node ∈ D.inState c .applied
  loans : ∀ c < D.nextId, o ∉ X.lineage c → X.inState c .applied =
    D.inState c .applied ++ (X.inState c .applied).filter (D.nextId ≤ ·)
  lent : ∀ c < D.nextId, o ∉ X.lineage c → ∀ x ∈ D.inState c .applied, D.isLive x → X.isLive x

set_option synthInstance.maxSize 512 in
instance (o : NodeId) (D X : Document) : Decidable (OverlayIntact o D X) :=
  decidable_of_iff (_ ∧ _ ∧ _ ∧ _ ∧ _)
    ⟨fun ⟨h₁, h₂, h₃, h₄, h₅⟩ ↦ ⟨h₁, h₂, h₃, h₄, h₅⟩, fun h ↦ ⟨h.1, h.2, h.3, h.4, h.5⟩⟩

namespace OverlayIntact

variable (h : OverlayIntact o D X) (hD : Linked D) (ho : D.isLive o)

include h hD ho

theorem isLive : X.isLive o := by
  obtain ⟨n, hn⟩ := isLive_iff.mp ho
  exact h.live o (lt_nextId hn) ((mem_lineage_iff_below hD ho).mpr .refl)

theorem mem_lineage_iff (hX : Linked X) : o ∈ X.lineage x ↔ Below X o x :=
  mem_lineage_iff_below hX (h.isLive hD ho)

theorem borrowed (hX : Linked X) (hb : ¬ Below X o c) (hen : en ∈ X.entries c)
    (hnode : Below X o en.node) : en.state = .applied ∧ en.node ∈ D.inState c .applied := by
  obtain ⟨s, hs, -⟩ := mem_entries.mp hen
  have hin := h.mem_lineage_iff (x := en.node) hD ho hX
  have hout := h.mem_lineage_iff (x := c) hD ho hX
  exact h.own c (hX.lt_of_store? hs) (mt hout.mp hb) en hen (hin.mpr hnode)

theorem keepsOverlay (hc : Continues D X) (hX : X.Reachable) : KeepsOverlay o D X where
  toContinues := hc
  overlay x hb hx := by
    obtain ⟨n, hn⟩ := isLive_iff.mp hx
    exact h.live x (lt_nextId hn) ((mem_lineage_iff_below hD ho).mpr hb)
  own c _ hb en hen hst hnode := absurd (h.borrowed hD ho hX.linked hb hen hnode).1 hst
  loans c hc hb := by
    refine ⟨_, h.loans c hc (mt (h.mem_lineage_iff hD ho hX.linked).mp hb), fun x hx ↦ ?_⟩
    obtain ⟨hmem, hle⟩ := List.mem_filter.mp hx
    have hle : D.nextId ≤ x := of_decide_eq_true hle
    refine ⟨hle, fun hnode ↦ ?_⟩
    obtain ⟨s, hs, en, hen, -, rfl⟩ := mem_inState.mp hmem
    have hold := (h.borrowed hD ho hX.linked hb (entries_eq hs ▸ hen) hnode).2
    exact absurd (hD.lt_of_mem_inState hold) (Nat.not_lt.mpr hle)
  live c hc hb := h.lent c hc (mt (h.mem_lineage_iff hD ho hX.linked).mp hb)
  later c hle hb en hen hnode := by
    have hold := (h.borrowed hD ho hX.linked hb hen hnode).2
    rw [inState_eq, entries_of_le hD hle] at hold
    simp at hold
  listed _ x n p hb hn hp := by
    have hin := (h.mem_lineage_iff hD ho hX.linked).mpr hb
    obtain ⟨s, hs⟩ := Option.isSome_iff_exists.mp (h.stored x (lt_nextId hn) hin n hn p hp)
    exact ⟨s, hs, (hX.fullyTraced.listsOwned.listed x n p s hn hp hs).resolve_left not_false⟩

end OverlayIntact

namespace Accomplished

variable (h : Accomplished D p₀ p)

include h

theorem node_old {n : Node} (ho : o < D.nextId) (hn : p.document.node? o = some n) :
    ∃ n₀, D.node? o = some n₀ ∧ n.parent = n₀.parent := by
  obtain ⟨n₀, hn₀, -, -, hp⟩ := node?_of_face? (h.face_old ho).symm hn
  exact ⟨n₀, hn₀, hp.symm⟩

theorem not_below_of_overlay (ho : o < D.nextId)
    (htop : ∀ n, D.node? o = some n → n.parent = none) (hx : Below p.document D.nextId x) :
    ¬ Below p.document o x := by
  intro hb
  have htop' : ∀ n, p.document.node? o = some n → n.parent = none := by
    intro n hn
    obtain ⟨n₀, hn₀, hp⟩ := h.node_old ho hn
    rw [hp, htop n₀ hn₀]
  have hnext : ∀ n', p.document.node? D.nextId = some n' → n'.parent = none := by
    intro n' hn'
    obtain ⟨n, hn, hp⟩ := h.node_overlay
    rw [hn] at hn'
    cases hn'
    exact hp
  rcases hb.total hx with hb | hb
  · exact absurd (hb.eq_of_top hnext) (Nat.ne_of_gt ho)
  · exact absurd (hb.eq_of_top htop') (Nat.ne_of_lt ho)

/-- What a block gets from one overlay is not part of another one, unless the block is. -/
theorem not_below_of_gain (ho : o < D.nextId)
    (htop : ∀ n, D.node? o = some n → n.parent = none)
    (hp : MergedPair D p.document D.nextId c s) (hc : ¬ Below p.document o c)
    {new : String × NodeId → Option Entry} (g : Gains D p₀ p c s new)
    (hen : en ∈ (p₀.document.propertyMap s).filterMap new) :
    D.nextId ≤ en.node ∧ ¬ Below p.document o en.node := by
  have hb := h.foldedInto_of_pair hp
  obtain ⟨⟨name, t⟩, hq, hnew⟩ := List.mem_filterMap.mp hen
  have ht := mem_propertyMap.mp hq
  rcases h.new_cases hb g ht hnew with ⟨kind, f, rfl, hle, hface, -⟩ | rfl
  · have hle' : D.nextId ≤ f := Nat.le_trans (Nat.le_of_lt h.appended.next) hle
    obtain ⟨n, hn, he⟩ := Option.map_eq_some_iff.mp hface
    simp only [Node.face, Prod.mk.injEq] at he
    refine ⟨hle', fun hbelow ↦ ?_⟩
    rcases hbelow.eq_or_parent hn he.2.2 with rfl | hbelow
    · exact absurd ho (Nat.not_lt.mpr hle')
    · exact hc hbelow
  · have hbt := (h.overlaid.parent_of_propertyNamed? hb.below ht).1
    have hle := hbt.le h.overlaid.rooted.linked.older
    exact ⟨hle, h.not_below_of_overlay ho htop (h.below_overlay hle (h.overlaid.lt_of_below hbt))⟩

theorem le_of_overlay (hp₀ : p₀.document = D.withOverlay later)
    (hnew : D.overlaySources.lookup later.id = none) (hle : D.nextId ≤ c)
    (hlt : c < p₀.document.nextId) (hen : en ∈ p.document.entries c) :
    D.nextId ≤ en.node ∧ en.node < p₀.document.nextId := by
  have htwins := Twins.withOverlay h.before h.before later
  rw [overlayId_eq hnew, ← hp₀] at htwins
  rw [h.grows.entries hlt (h.not_overlaps_overlay (h.appended.below c hle hlt))] at hen
  exact ⟨(htwins.own c hle en hen).1, h.overlaid.rooted.linked.lt_of_mem_entries hen⟩

theorem entries_old (ho : o < D.nextId) (htop : ∀ n, D.node? o = some n → n.parent = none)
    (hc : c < D.nextId) : ∃ gains, p.document.entries c = D.entries c ++ gains ∧
      (¬ Below p.document o c → ∀ en ∈ gains, D.nextId ≤ en.node ∧
        ¬ Below p.document o en.node) := by
  by_cases hpair : ∃ s, MergedPair D p.document D.nextId c s
  · obtain ⟨s, hp⟩ := hpair
    obtain ⟨new, g⟩ := h.gains (h.foldedInto_of_pair hp)
    exact ⟨_, g.entries, fun hb en hen ↦ h.not_below_of_gain ho htop hp hb g hen⟩
  · refine ⟨[], ?_, by simp⟩
    rw [h.entries_of_unpaired hc (not_exists.mp hpair), List.append_nil]

theorem not_below_of_new (hp₀ : p₀.document = D.withOverlay later)
    (hnew : D.overlaySources.lookup later.id = none) (ho : o < D.nextId)
    (htop : ∀ n, D.node? o = some n → n.parent = none) (hc : D.nextId ≤ c)
    (hb : ¬ Below p.document o c) (hen : en ∈ p.document.entries c) :
    ¬ Below p.document o en.node := by
  by_cases hover : c < p₀.document.nextId
  · obtain ⟨hle, hlt⟩ := h.le_of_overlay hp₀ hnew hc hover hen
    exact h.not_below_of_overlay ho htop (h.below_overlay hle hlt)
  · have hlt : c < p.document.nextId := by
      refine Nat.lt_of_not_le fun hle ↦ ?_
      rw [entries_of_le h.after hle] at hen
      simp at hen
    obtain ⟨s, hp⟩ := h.pair_of_new (Nat.not_lt.mp hover) hlt
    obtain ⟨new, g⟩ := h.gains (h.foldedInto_of_pair hp)
    rw [g.entries, entries_of_le h.before hc, List.nil_append] at hen
    exact (h.not_below_of_gain ho htop hp hb g hen).2

theorem isLive_old (hx : D.isLive x) : p.document.isLive x := by
  obtain ⟨n, hn⟩ := isLive_iff.mp hx
  obtain ⟨n', hn', -⟩ := node?_of_face? (h.face_old (lt_nextId hn)) hn
  exact isLive_iff.mpr ⟨n', hn'⟩

theorem listedBelow_old (ho : o < D.nextId) (htop : ∀ n, D.node? o = some n → n.parent = none)
    (hlisted : ListedBelow o D) : ListedBelow o p.document := by
  intro x n q hb hn hq
  by_cases hx : x < D.nextId
  · obtain ⟨n₀, hn₀, hp⟩ := h.node_old hx hn
    have hbD : Below D o x :=
      below_of_older h.before.older hx (fun y n' hy hn' ↦ h.node_old hy hn') hb
    obtain ⟨s, hs, hmem⟩ := hlisted x n₀ q hbD hn₀ (hp ▸ hq)
    obtain ⟨gains, he, -⟩ := h.entries_old ho htop (h.before.lt_of_store? hs)
    obtain ⟨en, hen, rfl⟩ := List.mem_map.mp hmem
    have hen' : en ∈ p.document.entries q := by
      rw [he, entries_eq hs]
      exact List.mem_append_left _ hen
    obtain ⟨s', hs', hen'⟩ := mem_entries.mp hen'
    exact ⟨s', hs', List.mem_map_of_mem hen'⟩
  · exact h.listed x n q (Nat.not_lt.mp hx) hn hq

/-- The first merge of a document leaves every other overlay as it is. -/
theorem keepsOverlay (hp₀ : p₀.document = D.withOverlay later)
    (hnew : D.overlaySources.lookup later.id = none) (ho : o < D.nextId)
    (htop : ∀ n, D.node? o = some n → n.parent = none) (hc : Continues D p.document) :
    KeepsOverlay o D p.document where
  toContinues := hc
  overlay _ _ := h.isLive_old
  own c hc hb en hen _ hnode := by
    obtain ⟨gains, he, hg⟩ := h.entries_old ho htop hc
    rw [he] at hen
    exact (List.mem_append.mp hen).resolve_right fun hen ↦ (hg hb en hen).2 hnode
  loans c hc hb := by
    obtain ⟨gains, he, hg⟩ := h.entries_old ho htop hc
    refine ⟨(gains.filter (·.state = .applied)).map (·.node), ?_, fun x hx ↦ ?_⟩
    · rw [inState_eq, he, List.filter_append, List.map_append, inState_eq]
    · obtain ⟨en, hen, rfl⟩ := List.mem_map.mp hx
      exact hg hb en (List.mem_filter.mp hen).1
  live _ _ _ _ _ := h.isLive_old
  later _ hc hb _ hen := h.not_below_of_new hp₀ hnew ho htop hc hb hen
  listed := h.listedBelow_old ho htop

end Accomplished

/-- What may come between two merges of a document whose overlay is `o`: any run that leaves the
overlay intact, and first merges of other documents. -/
inductive Interlude (o : NodeId) (D : Document) : Document → Prop
  | refl : Interlude o D D
  | run {X : Document} : Relation.ReflTransGen Operation D X → OverlayIntact o D X →
      Interlude o D X
  | merge {X later : Document} : Interlude o D X → X.overlaySources.lookup later.id = none →
      (∀ i n, later.node? i = some n → n.name.IsRegular) → Interlude o D (X.merge later).2

theorem Interlude.keepsOverlay (h : Interlude o D X) (hD : D.Reachable) (ho : D.isLive o)
    (htop : ∀ n, D.node? o = some n → n.parent = none) : X.Reachable ∧ KeepsOverlay o D X := by
  induction h with
  | refl => exact ⟨hD, .refl hD.linked o⟩
  | run hrun hintact =>
    exact ⟨hD.run hrun, hintact.keepsOverlay hD.linked ho (hD.continues hrun) (hD.run hrun)⟩
  | @merge X later _ hnew hnames ih =>
    obtain ⟨hX, hk⟩ := ih
    have hX' : (X.merge later).2.Reachable := .merge later hX
    refine ⟨hX', hk.trans ?_ hX.linked⟩
    have hlive := hk.overlay o .refl ho
    have htop' : ∀ n, X.node? o = some n → n.parent = none := by
      intro n' hn'
      obtain ⟨n, hn⟩ := isLive_iff.mp ho
      obtain ⟨n₀, hn₀, -, -, -, hp⟩ := node?_of_shape? (hk.shape o (lt_nextId hn) hlive).symm hn'
      rw [← hp, htop n₀ hn₀]
    have hc : Continues X (X.merge later).2 := .merge hX.linked later
    obtain ⟨p₀, p, hp, hp₀, -, -, heq⟩ :=
      accomplished_merge hX.rooted hnew hnames hX'.fullyTraced.listsOwned
    rw [heq] at hc ⊢
    obtain ⟨n, hn⟩ := isLive_iff.mp hlive
    exact hp.keepsOverlay hp₀ hnew (lt_nextId hn) htop' hc

end BuildScript.Document
