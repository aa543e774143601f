import BuildScript.Proofs.Folding.Growth

namespace BuildScript.Document

variable {d d₀ d' : Document} {Z : NodeId → Prop} {m₀ m m' : Merging} {fuel : Nat}
  {b c f lo lo' mine o s t x y : NodeId} {name name' : String} {q : String × NodeId}
  {e : Option Entry}

/-- A document with an overlay that no block has borrowed from yet. -/
structure Overlaid (o : NodeId) (d : Document) : Prop where
  rooted : Rooted d
  fresh : Fresh o d
  apart : ¬ Below d o root

/-- A block that an overlay can be folded into: one that is reached from the root, or a new one. -/
def Receives (d : Document) (c : NodeId) : Prop := Reaches d root c ∨ d.nextId ≤ c

def PartOf (d : Document) (c : NodeId) (name : String) (y : NodeId) : Prop :=
  ∃ mine, d.propertyNamed? c name = some mine ∧ Reaches d mine y

/-- The blocks that the folding of `s` into `c` comes to: `c`, and where both have a block of a
name, those that the folding of the one into the other comes to. -/
inductive Overlaps (d : Document) : NodeId → NodeId → NodeId → Prop
  | self {c s : NodeId} : Overlaps d c s c
  | both {c s mine t y : NodeId} {name : String} (hmine : d.propertyNamed? c name = some mine)
      (hblock : d.isBlockAt mine) (ht : d.propertyNamed? s name = some t) (htb : d.isBlockAt t)
      (h : Overlaps d mine t y) : Overlaps d c s y

/-- The same for one declaration of an overlay. -/
def Inward (d : Document) (c : NodeId) (q : String × NodeId) (y : NodeId) : Prop :=
  ∃ mine, d.propertyNamed? c q.1 = some mine ∧ d.isBlockAt mine ∧ d.isBlockAt q.2 ∧
    Overlaps d mine q.2 y

theorem contains_of_propertyNamed? (h : d.propertyNamed? b name = some t) :
    d.Contains b t ∧ ∃ n, d.node? t = some n ∧ n.name.full = name := by
  obtain ⟨s, n, hs, ht, hn, hname⟩ := mem_answers (mem_propertyMap.mpr h)
  exact ⟨⟨s, hs, ht⟩, n, hn, hname⟩

theorem isLive_of_propertyNamed? (h : d.propertyNamed? b name = some t) : d.isLive t := by
  obtain ⟨-, n, hn, -⟩ := contains_of_propertyNamed? h
  exact isLive_iff.mpr ⟨n, hn⟩

theorem lt_of_propertyNamed? (h : d.propertyNamed? b name = some t) : t < d.nextId := by
  obtain ⟨-, n, hn, -⟩ := contains_of_propertyNamed? h
  exact lt_nextId hn

theorem PartOf.reaches (h : PartOf d c name y) : Reaches d c y := by
  obtain ⟨mine, hmine, hy⟩ := h
  exact .head ⟨(contains_of_propertyNamed? hmine).1, isLive_of_propertyNamed? hmine⟩ hy

theorem Overlaps.reaches (h : Overlaps d c s y) : Reaches d c y := by
  induction h with
  | self => exact .refl
  | both hmine _ _ _ _ ih => exact PartOf.reaches ⟨_, hmine, ih⟩

theorem Inward.partOf (h : Inward d c q y) : PartOf d c q.1 y := by
  obtain ⟨mine, hmine, -, -, hy⟩ := h
  exact ⟨mine, hmine, hy.reaches⟩

theorem PartOf.lt (h : PartOf d c name y) : y < d.nextId := by
  obtain ⟨mine, hmine, hy⟩ := h
  exact hy.lt (lt_of_propertyNamed? hmine)

namespace Receives

theorem reaches (hc : Receives d c) (hl : Linked d) (h : d.Contains c x) : Reaches d root c := by
  refine hc.resolve_right fun hle ↦ ?_
  obtain ⟨s, hs, -⟩ := h
  exact absurd (hl.lt_of_store? hs) (Nat.not_lt.mpr hle)

theorem property (hc : Receives d c) (hl : Linked d) (h : d.propertyNamed? c name = some mine) :
    Receives d mine := by
  have hcontains := (contains_of_propertyNamed? h).1
  exact .inl ((hc.reaches hl hcontains).tail ⟨hcontains, isLive_of_propertyNamed? h⟩)

end Receives

theorem Linked.eq_of_reaches (hl : Linked d) (hc : d.nextId ≤ c) (h : Reaches d c y) : y = c :=
  h.eq_of_store?_eq_none (hl.store?_of_node?_eq_none (node?_of_le hc))

theorem Linked.not_reaches_of_lt (hl : Linked d) (hc : d.nextId ≤ c) (hy : y < c) :
    ¬ Reaches d c y :=
  fun hr ↦ Nat.ne_of_lt hy (hl.eq_of_reaches hc hr)

namespace Overlaid

theorem isLive_of_below (h : Overlaid o d) (hx : Below d o x) : d.isLive x := by
  obtain ⟨n, hn, -⟩ := h.fresh.top
  exact hx.isLive (isLive_iff.mpr ⟨n, hn⟩)

theorem lt_of_below (h : Overlaid o d) (hx : Below d o x) : x < d.nextId := by
  obtain ⟨n, hn⟩ := isLive_iff.mp (h.isLive_of_below hx)
  exact lt_nextId hn

theorem not_below (h : Overlaid o d) (hc : Receives d c) (hy : Reaches d c y) : ¬ Below d o y := by
  rcases hc with hc | hle
  · exact h.fresh.not_below_of_reaches h.rooted.linked h.apart (hc.trans hy)
  · rw [h.rooted.linked.eq_of_reaches hle hy]
    exact fun hb ↦ absurd (h.lt_of_below hb) (Nat.not_lt.mpr hle)

theorem not_partOf (h : Overlaid o d) : ¬ PartOf d c name c := by
  rintro ⟨mine, hmine, hc⟩
  exact h.rooted.not_reaches_back (contains_of_propertyNamed? hmine).1 hc

theorem partOf_disjoint (h : Overlaid o d) (hc : Receives d c) (hne : name ≠ name')
    (hy : PartOf d c name y) : ¬ PartOf d c name' y := by
  obtain ⟨mine, hmine, hy⟩ := hy
  rintro ⟨mine', hmine', hy'⟩
  obtain ⟨hcm, n, hn, hname⟩ := contains_of_propertyNamed? hmine
  obtain ⟨hcm', n', hn', hname'⟩ := contains_of_propertyNamed? hmine'
  refine h.rooted.disjoint (hc.reaches h.rooted.linked hcm) hcm hcm'
    (isLive_of_propertyNamed? hmine) (isLive_of_propertyNamed? hmine') (fun he ↦ hne ?_) hy hy'
  subst he
  rw [hn] at hn'
  cases hn'
  exact hname.symm.trans hname'

/-- What one declaration is folded into is neither the overlay nor a part of another name. -/
theorem apart_of_inward (h : Overlaid o d) (hc : Receives d c) (hne : q.1 ≠ name)
    (hy : y = c ∨ Inward d c q y) : ¬ Below d o y ∧ ¬ PartOf d c name y := by
  rcases hy with rfl | hy
  · exact ⟨h.not_below hc .refl, h.not_partOf⟩
  · exact ⟨h.not_below hc hy.partOf.reaches, h.partOf_disjoint hc hne hy.partOf⟩

theorem parent_of_propertyNamed? (h : Overlaid o d) (hs : Below d o s)
    (ht : d.propertyNamed? s name = some t) : Below d o t ∧ s < t := by
  obtain ⟨⟨st, hst, hmem⟩, -⟩ := contains_of_propertyNamed? ht
  obtain ⟨n, hn, hp⟩ := h.fresh.own s st t (hs.le h.rooted.linked.older) hst hmem
  exact ⟨.step hs hn hp, h.rooted.linked.older t n s hn hp⟩

end Overlaid

/-- What a merge does with one declaration of an overlay, by what the block `c` had: fold it into
a block that was there, or into a new one, or let `c` borrow it. With it the entry that `c` gets. -/
inductive Fate (F : NodeId → NodeId → Prop) (d₀ d' : Document) (lo c : NodeId) :
    String × NodeId → Option Entry → Prop
  | both {name : String} {mine t : NodeId} (hmine : d₀.propertyNamed? c name = some mine)
      (hblock : d₀.isBlockAt mine) (ht : d₀.isBlockAt t) (hin : F mine t) :
      Fate F d₀ d' lo c (name, t) none
  | made {name : String} {f t : NodeId} {kind : BlockKind}
      (hnone : d₀.propertyNamed? c name = none)
      (hkind : d₀.config.kindOf name (d'.enclosing c) = some kind) (ht : d₀.isBlockAt t)
      (hf : lo ≤ f) (hface : d'.face? f = some (.parse name, .block kind, some c)) (hin : F f t) :
      Fate F d₀ d' lo c (name, t) (some (.fresh f .existing false))
  | lent {name : String} {t : NodeId}
      (hboth : ∀ mine, d₀.propertyNamed? c name = some mine → d₀.isBlockAt mine →
        ¬ d₀.isBlockAt t)
      (hmade : ∀ kind, d₀.propertyNamed? c name = none →
        d₀.config.kindOf name (d'.enclosing c) = some kind → ¬ d₀.isBlockAt t) :
      Fate F d₀ d' lo c (name, t) (some (.fresh t .applied false))

/-- The block `s` of an overlay is folded into `c`, down to a depth. What is new is numbered from
`lo` on. -/
def Folded (d₀ d' : Document) (lo : NodeId) : Nat → NodeId → NodeId → Prop
  | 0, _, _ => False
  | depth + 1, c, s => ∃ new : String × NodeId → Option Entry,
    d'.entries c = d₀.entries c ++ (d₀.propertyMap s).filterMap new ∧
    ∀ q ∈ d₀.propertyMap s, Fate (Folded d₀ d' lo depth) d₀ d' lo c q (new q)

theorem Grows.entries (hg : Grows Z m m') (hy : y < m.document.nextId) (hZ : ¬ Z y) :
    m'.document.entries y = m.document.entries y :=
  entries_congr (hg.store y hy hZ)

theorem Fate.lower {F F' : NodeId → NodeId → Prop} (hle : lo' ≤ lo)
    (hF : ∀ c s, F c s → F' c s) (h : Fate F d₀ d' lo c q e) : Fate F' d₀ d' lo' c q e := by
  cases h with
  | both hmine hblock ht hin => exact .both hmine hblock ht (hF _ _ hin)
  | made hnone hkind ht hf hface hin =>
    exact .made hnone hkind ht (Nat.le_trans hle hf) hface (hF _ _ hin)
  | lent hboth hmade => exact .lent hboth hmade

theorem Folded.lower {depth : Nat} (hle : lo' ≤ lo) (h : Folded d₀ d' lo depth c s) :
    Folded d₀ d' lo' depth c s := by
  induction depth generalizing c s with
  | zero => exact h
  | succ depth ih =>
    obtain ⟨new, hentries, hall⟩ := h
    exact ⟨new, hentries, fun q hq ↦ (hall q hq).lower hle fun _ _ ↦ ih⟩

section Stable

variable (hl : Linked d₀) (hlo : d₀.nextId ≤ lo) (hnext : d₀.nextId ≤ m.document.nextId)
  (hg : Grows Z m m')

include hl hlo hnext hg

theorem Fate.grows {F F' : NodeId → NodeId → Prop} (hc : c < m.document.nextId)
    (hZ : ∀ y, PartOf d₀ c q.1 y ∨ lo ≤ y → ¬ Z y)
    (hF : ∀ c s, c < m.document.nextId → (∀ y, Reaches d₀ c y ∨ lo ≤ y → ¬ Z y) → F c s →
      F' c s)
    (h : Fate F d₀ m.document lo c q e) : Fate F' d₀ m'.document lo c q e := by
  have henclosing := enclosing_congr (hg.face c hc)
  cases h with
  | both hmine hblock ht hin =>
    have hlt := Nat.lt_of_lt_of_le (lt_of_propertyNamed? hmine) hnext
    refine .both hmine hblock ht (hF _ _ hlt (fun y hy ↦ hZ y ?_) hin)
    exact hy.imp_left fun hr ↦ ⟨_, hmine, hr⟩
  | made hnone hkind ht hf hface hin =>
    have hlt := lt_of_face? hface
    refine .made hnone (henclosing ▸ hkind) ht hf ((hg.face _ hlt).trans hface)
      (hF _ _ hlt (fun y hy ↦ hZ y (.inr ?_)) hin)
    rcases hy with hr | hy
    · rwa [hl.eq_of_reaches (Nat.le_trans hlo hf) hr]
    · exact hy
  | lent hboth hmade => exact .lent hboth (henclosing ▸ hmade)

/-- What is folded stays so while a merge goes on elsewhere. -/
theorem Folded.grows {depth : Nat} (h : Folded d₀ m.document lo depth c s)
    (hc : c < m.document.nextId) (hZ : ∀ y, Reaches d₀ c y ∨ lo ≤ y → ¬ Z y) :
    Folded d₀ m'.document lo depth c s := by
  induction depth generalizing c s with
  | zero => exact h
  | succ depth ih =>
    obtain ⟨new, hentries, hall⟩ := h
    refine ⟨new, (hg.entries hc (hZ c (.inl .refl))).trans hentries, fun q hq ↦ ?_⟩
    refine (hall q hq).grows hl hlo hnext hg hc (fun y hy ↦ ?_) fun c s hc hZ h ↦ ih h hc hZ
    exact hZ y (hy.imp_left PartOf.reaches)

end Stable

/-- Up to here the merge has changed neither the overlay nor what is reached from `c`. -/
structure Spared (o : NodeId) (m₀ m : Merging) (c : NodeId) : Prop where
  grows : Grows (fun y ↦ ¬ Below m₀.document o y ∧ ¬ Reaches m₀.document c y) m₀ m
  entries : m.document.entries c = m₀.document.entries c
  store : (m.document.store? c).isSome

def Folds (o : NodeId) (m₀ : Merging) (fuel : Nat) : Prop :=
  ∀ c s m, Receives m₀.document c → Below m₀.document o s → m₀.document.nextId ≤ fuel + s →
    Spared o m₀ m c →
    Grows (Overlaps m₀.document c s) m (mergeBlock fuel c s m) ∧
      Folded m₀.document (mergeBlock fuel c s m).document m.document.nextId fuel c s

/-- What a step of the merge from `m` to `m'` that gives `c` the entry `e` must be. -/
structure Takes (m₀ : Merging) (fuel : Nat) (c : NodeId) (q : String × NodeId) (m m' : Merging)
    (e : Option Entry) : Prop where
  grows : Grows (fun y ↦ y = c ∨ Inward m₀.document c q y) m m'
  entries : m'.document.entries c = m.document.entries c ++ e.toList
  fate : Fate (Folded m₀.document m'.document m.document.nextId fuel) m₀.document m'.document
    m.document.nextId c q e

theorem Overlaid.lt_of_store (h₀ : Overlaid o m₀.document) (hs : (m.document.store? c).isSome)
    (hg : Grows Z m₀ m) : c < m.document.nextId := by
  obtain ⟨st, hst⟩ := Option.isSome_iff_exists.mp hs
  have hlt := Table.lt_size_of_get? hst
  rwa [hg.sizes h₀.rooted.linked.sizes] at hlt

section Steps

variable (h₀ : Overlaid o m₀.document) (hc : Receives m₀.document c)
  (hs : (m.document.store? c).isSome)
  (hg : Grows (fun y ↦ ¬ Below m₀.document o y ∧ ¬ PartOf m₀.document c name y) m₀ m)

include h₀ hs hg

theorem Takes.borrow
    (hboth : ∀ mine, m₀.document.propertyNamed? c name = some mine →
      m₀.document.isBlockAt mine → ¬ m₀.document.isBlockAt t)
    (hmade : ∀ kind, m₀.document.propertyNamed? c name = none →
      m₀.document.config.kindOf name (m.document.enclosing c) = some kind →
      ¬ m₀.document.isBlockAt t) :
    Takes m₀ fuel c (name, t) m (borrow m c t) (some (.fresh t .applied false)) := by
  have hlt := h₀.lt_of_store hs hg
  have hgrow := Grows.borrow hs hlt t
  refine ⟨hgrow.mono fun y _ hy ↦ .inl hy, entries_modifyStore_add hs, .lent hboth ?_⟩
  exact (enclosing_congr (hgrow.face c hlt)).symm ▸ hmade

include hc

theorem Takes.both (ih : Folds o m₀ fuel) (ht : Below m₀.document o t)
    (hfuel : m₀.document.nextId ≤ fuel + t)
    (hmine : m₀.document.propertyNamed? c name = some mine) (hblock : m₀.document.isBlockAt mine)
    (htblock : m₀.document.isBlockAt t) :
    Takes m₀ fuel c (name, t) m (mergeBlock fuel mine t m) none := by
  have hstore : (m₀.document.store? mine).isSome := h₀.rooted.linked.store_of_isBlock hblock
  have hpart : ∀ y, Reaches m₀.document mine y ↔ PartOf m₀.document c name y := fun y ↦
    ⟨fun hy ↦ ⟨mine, hmine, hy⟩, fun ⟨mine', hmine', hy⟩ ↦ by
      rw [hmine] at hmine'
      cases hmine'
      exact hy⟩
  have hspared : Spared o m₀ m mine := by
    refine ⟨hg.mono fun y _ hy ↦ ⟨hy.1, fun hr ↦ hy.2 ((hpart y).mp hr)⟩, ?_, hg.stores _ hstore⟩
    exact hg.entries (lt_of_propertyNamed? hmine) fun hy ↦ hy.2 ((hpart mine).mp .refl)
  obtain ⟨hgrow, hfolded⟩ := ih mine t m (hc.property h₀.rooted.linked hmine) ht hfuel hspared
  refine ⟨hgrow.mono fun y _ hy ↦ .inr ⟨mine, hmine, hblock, htblock, hy⟩, ?_,
    .both hmine hblock htblock hfolded⟩
  have hnot : ¬ Overlaps m₀.document mine t c := fun hr ↦
    h₀.not_partOf ((hpart c).mp hr.reaches)
  rw [hgrow.entries (h₀.lt_of_store hs hg) hnot, Option.toList_none, List.append_nil]

/-- A new block is as good as one that was there: from it nothing else is reached. -/
theorem Spared.synthesize (kind : BlockKind) :
    Spared o m₀ (synthesize m c name kind) m.document.nextId := by
  have hlt := h₀.lt_of_store hs hg
  have hsizes := hg.sizes h₀.rooted.linked.sizes
  have hnew : ∀ y, y < m.document.nextId → ¬ Reaches m₀.document m.document.nextId y :=
    fun _ ↦ h₀.rooted.linked.not_reaches_of_lt hg.next
  have hgrow : Grows (fun y ↦ ¬ Below m₀.document o y ∧
      ¬ Reaches m₀.document m.document.nextId y) m₀ m :=
    hg.mono fun y hy hz ↦ ⟨hz.1, hnew y (Nat.lt_of_lt_of_le hy hg.next)⟩
  have hstore : (Document.synthesize m c name kind).document.store? m.document.nextId = some {} :=
    store?_enroll_new hsizes hlt rfl
  refine ⟨hgrow.trans (.synthesize hsizes c name kind) ?_, ?_, ?_⟩
  · rintro y - rfl
    exact ⟨h₀.not_below hc .refl, hnew y hlt⟩
  · rw [entries_eq hstore, Document.entries,
      h₀.rooted.linked.store?_of_node?_eq_none (node?_of_le hg.next)]
  · rw [hstore]
    rfl

theorem Takes.made (ih : Folds o m₀ fuel) (ht : Below m₀.document o t)
    (hfuel : m₀.document.nextId ≤ fuel + t) {kind : BlockKind}
    (hnone : m₀.document.propertyNamed? c name = none)
    (hkind : m₀.document.config.kindOf name (m.document.enclosing c) = some kind)
    (htblock : m₀.document.isBlockAt t) :
    Takes m₀ fuel c (name, t) m
      (mergeBlock fuel m.document.nextId t (synthesize m c name kind))
      (some (.fresh m.document.nextId .existing false)) := by
  have hlt := h₀.lt_of_store hs hg
  have hsizes := hg.sizes h₀.rooted.linked.sizes
  have hsyn := Grows.synthesize hsizes c name kind
  obtain ⟨hgrow, hfolded⟩ := ih m.document.nextId t _ (.inr hg.next) ht hfuel
    (Spared.synthesize h₀ hc hs hg kind)
  have hlt₁ : m.document.nextId < (synthesize m c name kind).document.nextId := by
    rw [document_synthesize, nextId_enroll]
    exact Nat.lt_succ_self _
  have hface : (synthesize m c name kind).document.face? m.document.nextId =
      some (.parse name, .block kind, some c) := by
    rw [document_synthesize, face?, node?_enroll, if_pos rfl]
    rfl
  have henclosing := (enclosing_congr (hgrow.face c (Nat.lt_trans hlt hlt₁))).trans
    (enclosing_congr (hsyn.face c hlt))
  have hnew : ∀ y, y < m.document.nextId → ¬ Reaches m₀.document m.document.nextId y :=
    fun _ ↦ h₀.rooted.linked.not_reaches_of_lt hg.next
  refine ⟨(hsyn.mono fun y _ hy ↦ .inl hy).trans hgrow fun y hy hr ↦
    absurd hr.reaches (hnew y hy), ?_, ?_⟩
  · rw [hgrow.entries (Nat.lt_trans hlt hlt₁) fun hr ↦ hnew c hlt hr.reaches,
      document_synthesize, entries_enroll hsizes hs hlt]
    rfl
  · exact .made hnone (henclosing ▸ hkind) htblock (Nat.le_refl _)
      ((hgrow.face _ hlt₁).trans hface) (hfolded.lower (Nat.le_of_lt hlt₁))

theorem Takes.named (ih : Folds o m₀ fuel) (ht : Below m₀.document o t)
    (hfuel : m₀.document.nextId ≤ fuel + t) :
    ∃ e, Takes m₀ fuel c (name, t) m (mergeNamed fuel (m₀.document.propertyMap c)
      (m.document.enclosing c) c m (name, t)) e := by
  have hblock : ∀ x, x < m₀.document.nextId →
      (m.document.node? x).any Node.isBlock = m₀.document.isBlockAt x := fun x hx ↦
    isBlockAt_congr (hg.face x hx)
  simp only [mergeNamed, lookup_propertyMap, hblock t (h₀.lt_of_below ht), hg.config]
  cases hmine : m₀.document.propertyNamed? c name with
  | some mine =>
    have hborrow : ¬ (m₀.document.isBlockAt mine ∧ m₀.document.isBlockAt t) →
        Takes m₀ fuel c (name, t) m (Document.borrow m c t) (some (.fresh t .applied false)) := by
      intro hnot
      refine .borrow h₀ hs hg (fun mine' hmine' hb htb ↦ ?_) fun _ hnone ↦ ?_
      · rw [hmine] at hmine'
        cases hmine'
        exact hnot ⟨hb, htb⟩
      · simp [hmine] at hnone
    simp only [hblock mine (lt_of_propertyNamed? hmine), Bool.and_eq_true]
    split
    · next hboth =>
      exact ⟨none, .both h₀ hc hs hg ih ht hfuel hmine hboth.1 hboth.2⟩
    · next hnot => exact ⟨_, hborrow hnot⟩
  | none =>
    have hborrow : (∀ kind, m₀.document.config.kindOf name (m.document.enclosing c) = some kind →
        ¬ m₀.document.isBlockAt t) →
        Takes m₀ fuel c (name, t) m (Document.borrow m c t) (some (.fresh t .applied false)) :=
      fun hnot ↦ .borrow h₀ hs hg (by simp [hmine]) fun kind _ ↦ hnot kind
    cases hkind : m₀.document.config.kindOf name (m.document.enclosing c) with
    | none => exact ⟨_, hborrow (by simp [hkind])⟩
    | some kind =>
      simp only
      split
      · next htb => exact ⟨_, .made h₀ hc hs hg ih ht hfuel hmine hkind htb⟩
      · next hnot => exact ⟨_, hborrow fun _ _ ↦ hnot⟩

end Steps

/-- Steps for other names stay away from what the step for one name has folded. -/
theorem Fate.later {l : List (String × NodeId)} (h₀ : Overlaid o m₀.document)
    (hc : Receives m₀.document c) (hlo : m₀.document.nextId ≤ lo) (hle : lo ≤ m.document.nextId)
    (hg : Grows (fun y ↦ y = c ∨ ∃ q ∈ l, Inward m₀.document c q y) m m') (hlt : c < lo)
    (hne : ∀ q' ∈ l, q.1 ≠ q'.1)
    (h : Fate (Folded m₀.document m.document lo fuel) m₀.document m.document lo c q e) :
    Fate (Folded m₀.document m'.document lo fuel) m₀.document m'.document lo c q e := by
  have hl := h₀.rooted.linked
  have hnext := Nat.le_trans hlo hle
  have hapart : ∀ y, PartOf m₀.document c q.1 y ∨ lo ≤ y →
      ¬ (y = c ∨ ∃ q' ∈ l, Inward m₀.document c q' y) := by
    rintro y (hy | hy) (rfl | ⟨q', hq', hy'⟩)
    · exact h₀.not_partOf hy
    · exact h₀.partOf_disjoint hc (hne q' hq') hy hy'.partOf
    · exact absurd hlt (Nat.not_lt.mpr hy)
    · exact absurd hy'.partOf.lt (Nat.not_lt.mpr (Nat.le_trans hlo hy))
  exact h.grows hl hlo hnext hg (Nat.lt_of_lt_of_le hlt hle) hapart fun c s hc hZ hin ↦
    hin.grows hl hlo hnext hg hc hZ

theorem Takes.foldl (h₀ : Overlaid o m₀.document) (hc : Receives m₀.document c)
    (ih : Folds o m₀ fuel) {l : List (String × NodeId)} (hnames : (l.map Prod.fst).Nodup)
    (hl : ∀ q ∈ l, Below m₀.document o q.2 ∧ m₀.document.nextId ≤ fuel + q.2)
    (hs : (m.document.store? c).isSome)
    (hg : ∀ q ∈ l, Grows (fun y ↦ ¬ Below m₀.document o y ∧ ¬ PartOf m₀.document c q.1 y) m₀ m)
    (hnext : m₀.document.nextId ≤ m.document.nextId) (hlt : c < m.document.nextId) :
    let m' := l.foldl (mergeNamed fuel (m₀.document.propertyMap c) (m.document.enclosing c) c) m
    ∃ new : String × NodeId → Option Entry,
      Grows (fun y ↦ y = c ∨ ∃ q ∈ l, Inward m₀.document c q y) m m' ∧
      m'.document.entries c = m.document.entries c ++ l.filterMap new ∧
      ∀ q ∈ l, Fate (Folded m₀.document m'.document m.document.nextId fuel) m₀.document
        m'.document m.document.nextId c q (new q) := by
  induction l generalizing m with
  | nil => exact ⟨fun _ ↦ none, .refl _ _, (List.append_nil _).symm, by simp⟩
  | cons q l ihl =>
    obtain ⟨name, t⟩ := q
    rw [List.map_cons] at hnames
    obtain ⟨hnot, hrest⟩ := List.nodup_cons.mp hnames
    obtain ⟨ht, hfuel⟩ := hl (name, t) List.mem_cons_self
    obtain ⟨e, hgrow, hentries, hfate⟩ :=
      Takes.named h₀ hc hs (hg (name, t) List.mem_cons_self) ih ht hfuel
    rw [List.foldl_cons]
    set m₁ := mergeNamed fuel (m₀.document.propertyMap c) (m.document.enclosing c) c m (name, t)
    have henclosing : m₁.document.enclosing c = m.document.enclosing c :=
      enclosing_congr (hgrow.face c hlt)
    have hne : ∀ q ∈ l, name ≠ q.1 := fun q hq he ↦ hnot (List.mem_map.mpr ⟨q, hq, he.symm⟩)
    -- what this step writes to is neither the overlay nor a part of another name
    have hg₁ : ∀ q ∈ l, Grows (fun y ↦ ¬ Below m₀.document o y ∧
        ¬ PartOf m₀.document c q.1 y) m₀ m₁ := by
      intro q hq
      exact (hg q (List.mem_cons_of_mem _ hq)).trans hgrow fun y _ hy ↦
        h₀.apart_of_inward hc (hne q hq) hy
    obtain ⟨new, hgrow', hentries', hfates⟩ := ihl hrest
      (fun q hq ↦ hl q (List.mem_cons_of_mem _ hq)) (hgrow.stores c hs) hg₁
      (Nat.le_trans hnext hgrow.next) (Nat.lt_of_lt_of_le hlt hgrow.next)
    rw [henclosing] at hgrow' hentries' hfates
    have hother : ∀ q ∈ l, q ≠ (name, t) := fun q hq he ↦ hne q hq (congrArg Prod.fst he).symm
    refine ⟨Function.update new (name, t) e, ?_, ?_, fun q hq ↦ ?_⟩
    · refine (hgrow.mono ?_).trans hgrow' ?_
      · exact fun y _ hy ↦ hy.imp_right fun hy ↦ ⟨(name, t), List.mem_cons_self, hy⟩
      · exact fun y _ hy ↦ hy.imp_right fun ⟨q, hq, hy⟩ ↦ ⟨q, List.mem_cons_of_mem _ hq, hy⟩
    · have hsame : l.filterMap (Function.update new (name, t) e) = l.filterMap new :=
        List.filterMap_congr fun q hq ↦ Function.update_of_ne (hother q hq) _ _
      rw [hentries', hentries, List.append_assoc, List.filterMap_cons, Function.update_self, hsame]
      cases e <;> rfl
    · rcases List.mem_cons.mp hq with rfl | hq
      · rw [Function.update_self]
        exact hfate.later h₀ hc hnext hgrow.next hgrow' hlt hne
      · rw [Function.update_of_ne (hother q hq)]
        exact (hfates q hq).lower hgrow.next fun _ _ ↦ Folded.lower hgrow.next

/-- An overlay is folded into a block without a change to anything that the folding does not come
to. -/
theorem mergeBlock_folds (h₀ : Overlaid o m₀.document) (fuel : Nat) : Folds o m₀ fuel := by
  induction fuel with
  | zero =>
    intro c s m _ hs hfuel _
    exact absurd (h₀.lt_of_below hs) (Nat.not_lt.mpr (by simpa using hfuel))
  | succ fuel ih =>
    intro c s m hc hs hfuel hspared
    have hl := h₀.rooted.linked
    have hg := hspared.grows
    have hfaces : ∀ b, ∀ e ∈ m₀.document.entries b, m.document.face? e.node =
        m₀.document.face? e.node := fun b e he ↦
      hg.face e.node (hl.lt_of_mem_entries he)
    have hsource : m.document.propertyMap s = m₀.document.propertyMap s :=
      propertyMap_congr (hg.entries (h₀.lt_of_below hs) fun hz ↦ hz.1 hs) (hfaces s)
    have htarget : m.document.propertyMap c = m₀.document.propertyMap c :=
      propertyMap_congr hspared.entries (hfaces c)
    have hlt : c < m.document.nextId := h₀.lt_of_store hspared.store hg
    rw [mergeBlock_succ, hsource, htarget]
    have hbelow : ∀ q ∈ m₀.document.propertyMap s,
        Below m₀.document o q.2 ∧ m₀.document.nextId ≤ fuel + q.2 := fun q hq ↦ by
      obtain ⟨hb, hst⟩ := h₀.parent_of_propertyNamed? hs (mem_propertyMap.mp hq)
      exact ⟨hb, by lia⟩
    obtain ⟨new, hgrow, hentries, hfates⟩ := Takes.foldl h₀ hc ih
      (answers_spec m₀.document s _).1 hbelow hspared.store
      (fun q _ ↦ hg.mono fun y _ hy ↦ ⟨hy.1, fun hp ↦ hy.2 hp.reaches⟩) hg.next hlt
    refine ⟨hgrow.mono ?_, new, hspared.entries ▸ hentries, hfates⟩
    rintro y - (rfl | ⟨q, hq, mine, hmine, hblock, htb, hy⟩)
    · exact .self
    · exact .both hmine hblock (mem_propertyMap.mp hq) htb hy

end BuildScript.Document
