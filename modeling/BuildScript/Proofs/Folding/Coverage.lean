import BuildScript.Proofs.Folding.Law
import BuildScript.Proofs.Folding.Withdrawal

namespace BuildScript.Document

variable {d other : Document} {m₀ m : Merging} {c f mine o s t x y : NodeId} {name : String}
  {kind : BlockKind} {new : String × NodeId → Option Entry} {en : Entry}

/-- A first merge that has been carried out. -/
structure Accomplished (d : Document) (m₀ m : Merging) : Prop extends Joined d m₀ m where
  top : FoldedInto d m₀ m root d.nextId
  listed : ListedFrom d.nextId m.document

namespace Accomplished

variable (h : Accomplished d m₀ m)

include h

theorem face_old (hx : x < d.nextId) : m.document.face? x = d.face? x :=
  (h.grows.face x (Nat.lt_trans hx h.appended.next)).trans (h.appended.face x hx)

theorem node_overlay : ∃ n, m.document.node? d.nextId = some n ∧ n.parent = none := by
  obtain ⟨n₀, hn₀, hp₀⟩ := h.overlaid.fresh.top
  obtain ⟨n, hn, -, -, hp⟩ := node?_of_face? (h.grows.face _ (lt_nextId hn₀)) hn₀
  exact ⟨n, hn, hp.trans hp₀⟩

theorem meets_of_overlay (hb : FoldedInto d m₀ m c s)
    (hmine : m₀.document.propertyNamed? c name = some mine) (hblock : m₀.document.isBlockAt mine)
    (ht : m₀.document.propertyNamed? s name = some t) (htb : m₀.document.isBlockAt t) :
    Meets d m.document c s name mine t where
  theirs := (h.property_overlay hb.below name).trans ht
  isBlock := by
    rw [h.isBlockAt_overlay (h.overlaid.parent_of_propertyNamed? hb.below ht).1]
    exact htb
  ours := (h.property_before hb.receives name).symm.trans hmine
  wasBlock := by
    have hours := (h.property_before hb.receives name).symm.trans hmine
    rw [← isBlockAt_congr (h.appended.face mine (lt_of_propertyNamed? hours))]
    exact hblock

theorem new_cases (hb : FoldedInto d m₀ m c s) (g : Gains d m₀ m c s new)
    (ht : m₀.document.propertyNamed? s name = some t) (hnew : new (name, t) = some en) :
    (∃ kind f, en = .fresh f .existing false ∧ m₀.document.nextId ≤ f ∧
      m.document.face? f = some (.parse name, .block kind, some c) ∧
      Wants d m.document c s name kind t ∧ Made d m.document c name kind f) ∨
    en = .fresh t .applied false := by
  have hfate := g.fate name t ht
  rw [hnew] at hfate
  have hmem := g.mem ht hnew
  cases hfate with
  | @made _ f _ kind hnone hkind htb hf hface _ =>
    refine .inl ⟨kind, f, rfl, hf, hface, ⟨?_, ?_, ?_, ?_⟩, ?_, h.after.state?_of_mem hmem, ?_⟩
    · exact (h.property_overlay hb.below name).trans ht
    · rw [h.isBlockAt_overlay (h.overlaid.parent_of_propertyNamed? hb.below ht).1]
      exact htb
    · exact (h.property_before hb.receives name).symm.trans hnone
    · rw [← h.appended.config]
      exact hkind
    · exact Nat.le_trans (Nat.le_of_lt h.appended.next) hf
    · obtain ⟨n, hn, he⟩ := Option.map_eq_some_iff.mp hface
      simp only [Node.face, Prod.mk.injEq] at he
      exact ⟨n, hn, by rw [he.1, h.full_parse hb.below ht], he.2.1⟩
  | lent => exact .inr rfl

theorem answer_of_meets (hb : FoldedInto d m₀ m c s) (hboth : Meets d m.document c s name mine t) :
    m.document.propertyNamed? c name = some mine ∧ m.document.isBlockAt mine := by
  refine ⟨(h.lookupLaw hb).both name mine t hboth, ?_⟩
  rw [isBlockAt_congr (h.face_old (lt_of_propertyNamed? hboth.ours))]
  exact hboth.wasBlock

theorem answer_of_made (hb : FoldedInto d m₀ m c s) (hwants : Wants d m.document c s name kind t)
    (hmade : Made d m.document c name kind f) :
    m.document.propertyNamed? c name = some f ∧ m.document.isBlockAt f := by
  refine ⟨((h.lookupLaw hb).made name kind t hwants).2 f hmade, ?_⟩
  obtain ⟨n, hn, -, hkind⟩ := hmade.node
  rw [isBlockAt, hn, Option.any_some, Node.isBlock, hkind]
  rfl

theorem foldedInto_of_pair (hp : MergedPair d m.document d.nextId c s) : FoldedInto d m₀ m c s :=
  h.toJoined.foldedInto h.top hp

theorem pair_of_overlaps (hp : MergedPair d m.document d.nextId c s)
    (hy : Overlaps m₀.document c s y) : ∃ t, MergedPair d m.document d.nextId y t := by
  induction hy with
  | self => exact ⟨_, hp⟩
  | both hmine hblock ht htb _ ih =>
    exact ih (.both hp (h.meets_of_overlay (h.foldedInto_of_pair hp) hmine hblock ht htb))

theorem pair_of_new (hx : m₀.document.nextId ≤ x) (hlt : x < m.document.nextId) :
    ∃ t, MergedPair d m.document d.nextId x t := by
  induction x using Nat.strongRecOn with
  | ind x ih =>
    obtain ⟨n, p, hn, -, hp, hor⟩ := h.grows.made x hx hlt
    have hpair : ∃ s, MergedPair d m.document d.nextId p s := by
      rcases hor with hover | hle
      · exact h.pair_of_overlaps .top hover
      · have hpx := h.after.older x n p hn hp
        exact ih p hpx hle (Nat.lt_trans hpx hlt)
    obtain ⟨s, hps⟩ := hpair
    have hb := h.foldedInto_of_pair hps
    obtain ⟨new, g⟩ := h.gains hb
    have hdx : d.nextId ≤ x := Nat.le_trans (Nat.le_of_lt h.appended.next) hx
    obtain ⟨st, hst, hmem⟩ := h.listed x n p hdx hn hp
    obtain ⟨en, hen, rfl⟩ := List.mem_map.mp hmem
    have hentry : en ∈ m.document.entries p := by rwa [entries_eq hst]
    rw [g.entries] at hentry
    rcases List.mem_append.mp hentry with hold | hnew
    · exact absurd (h.before.lt_of_mem_entries hold) (Nat.not_lt.mpr hdx)
    · obtain ⟨⟨name, t⟩, hq, hnew⟩ := List.mem_filterMap.mp hnew
      have ht := mem_propertyMap.mp hq
      rcases h.new_cases hb g ht hnew with ⟨kind, f, rfl, -, -, hwants, hmade⟩ | rfl
      · exact ⟨t, .made hps hwants hmade⟩
      · have hbt := (h.overlaid.parent_of_propertyNamed? hb.below ht).1
        exact absurd (h.overlaid.lt_of_below hbt) (Nat.not_lt.mpr hx)

/-- What a merge has not come to is as it was. -/
theorem entries_of_unpaired (hx : x < d.nextId)
    (hno : ∀ s, ¬ MergedPair d m.document d.nextId x s) : m.document.entries x = d.entries x := by
  have hnot : ¬ Overlaps m₀.document root d.nextId x := fun hy ↦ by
    obtain ⟨t, ht⟩ := h.pair_of_overlaps .top hy
    exact hno t ht
  rw [h.grows.entries (Nat.lt_trans hx h.appended.next) hnot, entries_congr (h.appended.store x hx)]

theorem lt_of_pair (hp : MergedPair d m.document d.nextId c s) : c < m.document.nextId := by
  cases hp with
  | top =>
    obtain ⟨n, hn, -⟩ := h.after.root
    exact lt_nextId hn
  | both _ hboth =>
    exact Nat.lt_trans (lt_of_propertyNamed? hboth.ours)
      (Nat.lt_of_lt_of_le h.appended.next h.grows.next)
  | made _ _ hmade =>
    obtain ⟨n, hn, -⟩ := hmade.node
    exact lt_nextId hn

theorem below_iff (hx : x < m.document.nextId) :
    Below m.document d.nextId x ↔ d.nextId ≤ x ∧ x < m₀.document.nextId := by
  constructor
  · intro hb
    refine ⟨hb.le h.after.older, Nat.lt_of_not_le fun hle ↦ ?_⟩
    exact h.not_below_overlay hle hx hb
  · rintro ⟨hle, hlt⟩
    exact h.below_overlay hle hlt

theorem not_below_of_pair (hp : MergedPair d m.document d.nextId c s) :
    ¬ Below m.document d.nextId c := by
  rw [h.below_iff (h.lt_of_pair hp)]
  rcases h.lt_or_le (h.foldedInto_of_pair hp).receives with hlt | hle
  · exact fun hb ↦ absurd hlt (Nat.not_lt.mpr hb.1)
  · exact fun hb ↦ absurd hb.2 (Nat.not_lt.mpr hle)

/-- Outside of the overlay blocks have nothing of it that they have not borrowed. -/
theorem not_below_of_own (hc : ¬ Below m.document d.nextId c) (hlt : c < m.document.nextId)
    (hen : en ∈ m.document.entries c) (hst : en.state ≠ .applied) :
    ¬ Below m.document d.nextId en.node := by
  have hold : en ∈ d.entries c → ¬ Below m.document d.nextId en.node := fun hen hb ↦
    absurd (hb.le h.after.older) (Nat.not_le.mpr (h.before.lt_of_mem_entries hen))
  by_cases hpair : ∃ s, MergedPair d m.document d.nextId c s
  · obtain ⟨s, hp⟩ := hpair
    obtain ⟨new, g⟩ := h.gains (h.foldedInto_of_pair hp)
    rw [g.entries] at hen
    rcases List.mem_append.mp hen with hen | hen
    · exact hold hen
    · obtain ⟨⟨name, t⟩, hq, hnew⟩ := List.mem_filterMap.mp hen
      rcases h.new_cases (h.foldedInto_of_pair hp) g (mem_propertyMap.mp hq) hnew with
        ⟨kind, f, rfl, hle, hface, -⟩ | rfl
      · exact fun hb ↦ absurd ((h.below_iff (lt_of_face? hface)).mp hb).2 (Nat.not_lt.mpr hle)
      · exact absurd rfl hst
  · by_cases hcd : c < d.nextId
    · exact hold (h.entries_of_unpaired hcd (not_exists.mp hpair) ▸ hen)
    · refine absurd (h.pair_of_new (Nat.le_of_not_lt fun hover ↦ hc ?_) hlt) hpair
      exact (h.below_iff hlt).mpr ⟨Nat.not_lt.mp hcd, hover⟩

end Accomplished

/-- The first merge of a document, step by step: `m₀` has the overlay, `m` what comes out. -/
theorem accomplished_merge {D : NodeId → Prop} {ov : List NodeId} (hd : Rooted d)
    (hnew : d.overlaySources.lookup other.id = none)
    (hnames : ∀ i n, other.node? i = some n → n.name.IsRegular)
    (hh : ListsOwned D ov (fun _ ↦ False) (d.merge other).2) :
    ∃ m₀ m, Accomplished d m₀ m ∧ m₀.document = d.withOverlay other ∧ m₀.applied = 0 ∧
      m₀.synthesized = 0 ∧ d.merge other =
        (⟨d.nextId, none, m.applied, m.synthesized, m.skipped⟩, m.document) := by
  obtain ⟨hjoined, hroot, happlied, hsynthesized, hmerge⟩ := joined_withOverlay hd hnew hnames
  have hlisted := ((hasStoresAbove_nextId d).merge hd.linked hnew).listedFrom hh
  rw [hmerge] at hlisted
  exact ⟨_, _, ⟨hjoined, hroot, hlisted⟩, rfl, happlied, hsynthesized, hmerge⟩

end BuildScript.Document
