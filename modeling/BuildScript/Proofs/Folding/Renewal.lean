import BuildScript.Proofs.Folding.Coverage
import BuildScript.Proofs.Folding.Twin
import BuildScript.Proofs.Operation

namespace BuildScript.Document

variable {D X d e : Document} {m₀ m q₀ q : Merging} {a c o s t x y : NodeId} {name : String}
  {new : String × NodeId → Option Entry}

/-- `X` has come out of `D`, where `o` is an overlay, and the overlay is still there: its nodes, and
what other blocks have borrowed of it, in front of all that they have borrowed since. -/
structure KeepsOverlay (o : NodeId) (D X : Document) : Prop extends Continues D X where
  overlay : ∀ x, Below D o x → D.isLive x → X.isLive x
  own : ∀ c, c < D.nextId → ¬ Below X o c → ∀ en ∈ X.entries c, en.state ≠ .applied →
    Below X o en.node → en ∈ D.entries c
  loans : ∀ c, c < D.nextId → ¬ Below X o c → ∃ extra,
    X.inState c .applied = D.inState c .applied ++ extra ∧
      ∀ x ∈ extra, D.nextId ≤ x ∧ ¬ Below X o x
  live : ∀ c, c < D.nextId → ¬ Below X o c → ∀ x ∈ D.inState c .applied, D.isLive x → X.isLive x
  later : ∀ c, D.nextId ≤ c → ¬ Below X o c → ∀ en ∈ X.entries c, ¬ Below X o en.node
  listed : ListedBelow o D → ListedBelow o X

theorem KeepsOverlay.refl (h : Linked D) (o : NodeId) : KeepsOverlay o D D where
  toContinues := .refl D
  overlay _ _ hx := hx
  own _ _ _ _ hen _ _ := hen
  loans _ _ _ := ⟨[], (List.append_nil _).symm, by simp⟩
  live _ _ _ _ _ hx := hx
  later c hc _ en hen := by
    rw [Document.entries, h.store?_of_node?_eq_none (node?_of_le hc)] at hen
    simp at hen
  listed hl := hl

theorem KeepsOverlay.below_after (h : KeepsOverlay o D X) (hb : Below D o x) : Below X o x := by
  induction hb with
  | refl => exact .refl
  | @step p x n hb hn hp ih =>
    have hlive := h.overlay x (.step hb hn hp) (isLive_iff.mpr ⟨n, hn⟩)
    obtain ⟨n', hn', -, -, -, hp'⟩ := node?_of_shape? (h.shape x (lt_nextId hn) hlive) hn
    exact .step ih hn' (hp'.trans hp)

/-- In addition a block that answers goes on to answer, nothing or something without entries takes
the place of something else, and no new name comes into the overlay. -/
structure Sequel (o : NodeId) (D X : Document) : Prop extends KeepsOverlay o D X where
  linked : Linked X
  kept : ∀ c name x, D.propertyNamed? c name = some x → X.propertyNamed? c name = some x ∨
    D.isBlockAt x = false ∧ ∀ y, X.propertyNamed? c name = some y → X.store? y = none
  shut : ∀ s name, s < D.nextId → Below X o s → D.propertyNamed? s name = none →
    X.propertyNamed? s name = none

theorem Sequel.refl (h : Linked D) (o : NodeId) : Sequel o D D where
  toKeepsOverlay := .refl h o
  linked := h
  kept _ _ _ hx := .inl hx
  shut _ _ _ _ hnone := hnone

/-- A document is merged (`m`), the overlay is put away some time later (`e`), and the document is
merged again (`q`). -/
structure Renewed (d : Document) (m₀ m : Merging) (X e : Document) (q₀ q : Merging) : Prop where
  first : Accomplished d m₀ m
  sequel : Sequel d.nextId m.document X
  withdrawn : Withdrawn d.nextId X e
  second : Accomplished e q₀ q
  twins : Twins d.nextId e.nextId m₀.document q₀.document

namespace Renewed

variable (h : Renewed d m₀ m X e q₀ q)

include h

theorem below_iff (hx : x < m.document.nextId) :
    Below X d.nextId x ↔ d.nextId ≤ x ∧ x < m₀.document.nextId := by
  rw [← h.first.below_iff hx]
  exact ⟨h.sequel.below_before h.first.after.older hx, h.sequel.below_after⟩

theorem not_below_of_lt (hx : x < d.nextId) : ¬ Below X d.nextId x := fun hb ↦
  absurd (hb.le h.sequel.linked.older) (Nat.not_le.mpr hx)

theorem below_overlay (ht : Below m₀.document d.nextId t) : Below X d.nextId t := by
  have hlt := h.first.overlaid.lt_of_below ht
  refine (h.below_iff (Nat.lt_of_lt_of_le hlt h.first.grows.next)).mpr ⟨?_, hlt⟩
  exact ht.le h.first.overlaid.rooted.linked.older

theorem not_below_of_pair (hp : MergedPair d m.document d.nextId c s) : ¬ Below X d.nextId c := by
  have hlt := h.first.lt_of_pair hp
  rw [h.below_iff hlt, ← h.first.below_iff hlt]
  exact h.first.not_below_of_pair hp

theorem le_overlay (hb : FoldedInto d m₀ m c s) : d.nextId ≤ s :=
  hb.below.le h.first.overlaid.rooted.linked.older

theorem property_twin (hs : d.nextId ≤ s) (hlt : s < m₀.document.nextId) (name : String) :
    q.document.propertyNamed? (twin d.nextId e.nextId s) name =
      (m.document.propertyNamed? s name).map (twin d.nextId e.nextId) := by
  have hnext := h.twins.next
  have hle : e.nextId ≤ twin d.nextId e.nextId s := Nat.le_add_left _ _
  have hlt' : twin d.nextId e.nextId s < q₀.document.nextId := by
    simp only [twin] at hnext ⊢
    lia
  rw [h.second.property_overlay (h.second.appended.below _ hle hlt'), h.twins.propertyNamed? hs,
    h.first.property_overlay (h.first.appended.below s hs hlt)]

theorem block_kept (hc : ¬ Below X d.nextId c) (hx : m.document.propertyNamed? c name = some x)
    (hblock : m.document.isBlockAt x) (hb : ¬ Below X d.nextId x) :
    X.propertyNamed? c name = some x ∧ e.propertyNamed? c name = some x ∧ e.isBlockAt x := by
  rcases h.sequel.kept c name x hx with hX | ⟨hno, -⟩
  · refine ⟨hX, h.withdrawn.propertyNamed?_of_some hc hX hb, ?_⟩
    have hshape := h.sequel.shape x (lt_of_propertyNamed? hx) (isLive_of_propertyNamed? hX)
    rw [h.withdrawn.isBlockAt hb, isBlockAt_of_shape? hshape]
    exact hblock
  · simp [hblock] at hno

/-- Outside of the overlay what is not borrowed is not part of it. -/
theorem not_below_of_own (hc : ¬ Below X d.nextId c) (hlt : c < m.document.nextId) {en : Entry}
    (hen : en ∈ X.entries c) (hst : en.state ≠ .applied) : ¬ Below X d.nextId en.node := by
  intro hb
  have hold := h.sequel.own c hlt hc en hen hst hb
  rw [h.below_iff hlt, ← h.first.below_iff hlt] at hc
  have hnode := h.first.after.lt_of_mem_entries hold
  rw [h.below_iff hnode, ← h.first.below_iff hnode] at hb
  exact h.first.not_below_of_own hc hlt hold hst hb

/-- What is borrowed for a name: the loans from before, the one from the overlay, and later ones. -/
theorem borrowed (g : Gains d m₀ m c s new) (hc : ¬ Below X d.nextId c)
    (hlt : c < m.document.nextId) (name : String) : ∃ later,
      (X.inState c .applied).filter (X.isProperty name) =
        (d.inState c .applied).filter (d.isProperty name) ++
          ((((m₀.document.propertyNamed? s name).bind fun t ↦ new (name, t)).toList.filter
            (·.state = .applied)).map (·.node)) ++ later ∧
      ∀ x ∈ later, m.document.nextId ≤ x ∧ ¬ Below X d.nextId x := by
  obtain ⟨extra, hextra, hnode⟩ := h.sequel.loans c hlt hc
  refine ⟨extra.filter (X.isProperty name), ?_, fun x hx ↦ hnode x (List.mem_filter.mp hx).1⟩
  have hold : (m.document.inState c .applied).filter (X.isProperty name) =
      (m.document.inState c .applied).filter (m.document.isProperty name) := by
    refine List.filter_congr fun x hx ↦ ?_
    obtain ⟨st, hst, en, hen, -, rfl⟩ := mem_inState.mp hx
    have hlt' := h.first.after.lt_of_mem_entries (entries_eq hst ▸ hen)
    cases hlive : X.isLive en.node with
    | true => exact isProperty_of_shape? (h.sequel.shape _ hlt' hlive)
    | false =>
      -- what is gone has not been there
      have hdead : ∀ {D : Document}, D.isLive en.node = false → D.isProperty name en.node = false :=
        fun hD ↦ by
          rw [isLive, Option.isSome_eq_false_iff, Option.isNone_iff_eq_none] at hD
          rw [isProperty, hD, Option.any_none]
      rw [hdead hlive, hdead (Bool.eq_false_iff.mpr fun hm ↦ ?_)]
      simp [h.sequel.live c hlt hc _ hx hm] at hlive
  rw [hextra, List.filter_append, hold, ← map_node_filter_applied, g.declared, List.filter_append,
    List.map_append, map_node_filter_applied]

theorem borrowed_loan (g : Gains d m₀ m c s new) (hc : ¬ Below X d.nextId c)
    (hlt : c < m.document.nextId) (ht : m₀.document.propertyNamed? s name = some t)
    (hnew : new (name, t) = some (.fresh t .applied false)) : ∃ later,
      (X.inState c .applied).filter (X.isProperty name) =
        (d.inState c .applied).filter (d.isProperty name) ++ [t] ++ later ∧
      ∀ x ∈ later, m.document.nextId ≤ x ∧ ¬ Below X d.nextId x := by
  obtain ⟨later, hlist, hlater⟩ := h.borrowed g hc hlt name
  rw [ht, Option.bind_some, hnew] at hlist
  exact ⟨later, hlist, hlater⟩

theorem not_below_of_borrowed (hx : x ∈ d.inState c .applied) : ¬ Below X d.nextId x := by
  obtain ⟨st, hst, en, hen, -, rfl⟩ := mem_inState.mp hx
  exact h.not_below_of_lt (h.first.before.lt_of_mem_entries (entries_eq hst ▸ hen))

theorem isBlockAt_lent (ht : Below m₀.document d.nextId t) :
    X.isBlockAt t = m₀.document.isBlockAt t := by
  have hlt := h.first.overlaid.lt_of_below ht
  have hlt' := Nat.lt_of_lt_of_le hlt h.first.grows.next
  have hbt := h.first.below_overlay (ht.le h.first.overlaid.rooted.linked.older) hlt
  obtain ⟨n, hn⟩ := h.first.node_overlay
  have hlive := hbt.isLive (isLive_iff.mpr ⟨n, hn.1⟩)
  rw [isBlockAt_of_shape? (h.sequel.shape t hlt' (h.sequel.overlay t hbt hlive)),
    isBlockAt_congr (h.first.grows.face t hlt)]

/-- A loan that answers comes last, behind loans only. Without it what answered before does so
again, unless the loan has taken the place of something and is no block. -/
theorem loan_answers (hb : FoldedInto d m₀ m c s) (g : Gains d m₀ m c s new)
    (hc : ¬ Below X d.nextId c) (hlt : c < m.document.nextId)
    (ht : m₀.document.propertyNamed? s name = some t)
    (hnew : new (name, t) = some (.fresh t .applied false)) {en : Entry}
    (hpick : Entry.pick ((X.entries c).filter (X.declares name)) = some en)
    (hbelow : Below X d.nextId en.node) : en.node = t ∧
      ((e.entries c).filter (e.declares name)).filter (·.state != .applied) = [] ∧
      (e.propertyNamed? c name = d.propertyNamed? c name ∨ ¬ m₀.document.isBlockAt t) := by
  classical
  obtain ⟨later, hlist, hlater⟩ := h.borrowed_loan g hc hlt ht hnew
  have hbt := (h.first.overlaid.parent_of_propertyNamed? hb.below ht).1
  have hmem := (List.mem_filter.mp (Entry.mem_of_pick hpick)).1
  have hst : en.state = .applied := by
    by_contra hst
    exact h.not_below_of_own hc hlt hmem hst hbelow
  obtain ⟨hown, hlast⟩ := Entry.of_pick_applied hpick hst
  have hnodes := map_node_filter_declares hown
  have hend : ((d.inState c .applied).filter (d.isProperty name) ++ [t] ++ later).getLast? =
      some en.node := by
    rw [← hlist, ← hnodes, List.getLast?_map, hlast]
    rfl
  have hnil : later = [] := by
    by_contra hne
    rw [List.getLast?_append_of_ne_nil _ hne] at hend
    exact (hlater _ (List.mem_of_getLast? hend)).2 hbelow
  subst hnil
  have hent : en.node = t := by simpa using hend.symm
  have hown' : ((e.entries c).filter (e.declares name)).filter (·.state != .applied) = [] := by
    rw [h.withdrawn.declared hc, List.filter_filter, List.filter_congr (fun e _ ↦ Bool.and_comm ..),
      ← List.filter_filter, hown, List.filter_nil]
  refine ⟨hent, hown', ?_⟩
  have hleft : (e.inState c .applied).filter (e.isProperty name) =
      (d.inState c .applied).filter (d.isProperty name) := by
    have hkeep : ((d.inState c .applied).filter (d.isProperty name)).filter
        (fun x ↦ decide ¬ Below X d.nextId x) = (d.inState c .applied).filter (d.isProperty name) :=
      List.filter_eq_self.mpr fun x hx ↦ by
        simpa using h.not_below_of_borrowed (List.mem_filter.mp hx).1
    have hwithout : ((X.entries c).filter (X.declares name) |>.filter
        fun en ↦ decide ¬ Below X d.nextId en.node).map (·.node) =
        (((X.entries c).filter (X.declares name)).map (·.node)).filter
          fun x ↦ decide ¬ Below X d.nextId x := by
      rw [List.filter_map]
      rfl
    rw [← map_node_filter_declares hown', h.withdrawn.declared hc, hwithout, hnodes, hlist,
      List.append_nil, List.filter_append, hkeep]
    simp [h.below_overlay hbt]
  have hX : X.propertyNamed? c name = some t := by rw [propertyNamed?_eq, hpick, ← hent]; rfl
  cases hbefore : ((d.entries c).filter (d.declares name)).filter (·.state != .applied) with
  | nil =>
    refine .inl ?_
    rw [propertyNamed?_of_no_own hown', hleft, propertyNamed?_of_no_own hbefore]
  | cons en' rest =>
    obtain ⟨own, hown⟩ : ∃ own, (((d.entries c).filter (d.declares name)).filter
        (·.state != .applied)).getLast? = some own := by
      rw [hbefore]
      exact Option.isSome_iff_exists.mp (by simp)
    have hm : m.document.propertyNamed? c name = some own.node := by
      rw [g.property, ht, Option.bind_some, hnew, Option.toList_some,
        Entry.pick_append_of_own (by simp [Entry.fresh]) hown]
      rfl
    have hmine := (List.mem_filter.mp (List.mem_filter.mp (List.mem_of_getLast? hown)).1).1
    rcases h.sequel.kept c name own.node hm with hkept | ⟨-, hstore⟩
    · rw [hX] at hkept
      cases hkept
      exact absurd (h.below_overlay hbt)
        (h.not_below_of_lt (h.first.before.lt_of_mem_entries hmine))
    · refine .inr fun hblock ↦ ?_
      have hsome := h.sequel.linked.store_of_isBlock ((h.isBlockAt_lent hbt).trans hblock)
      simp [hstore t hX] at hsome

theorem own_answers (hb : FoldedInto d m₀ m c s) (g : Gains d m₀ m c s new)
    (hc : ¬ Below X d.nextId c) (hlt : c < m.document.nextId)
    (ht : m₀.document.propertyNamed? s name = some t)
    (hnew : new (name, t) = some (.fresh t .applied false)) {en : Entry}
    (hpick : Entry.pick ((X.entries c).filter (X.declares name)) = some en)
    (hstay : ¬ Below X d.nextId en.node)
    (hsame : m.document.propertyNamed? c name = some en.node) :
    d.propertyNamed? c name = some en.node ∧ en.state ≠ .applied := by
  obtain ⟨later, hlist, hlater⟩ := h.borrowed_loan g hc hlt ht hnew
  have hbt := h.below_overlay (h.first.overlaid.parent_of_propertyNamed? hb.below ht).1
  have hlt' := lt_of_propertyNamed? hsame
  rw [g.property, ht, Option.bind_some, hnew, Option.toList_some,
    Entry.pick_append_applied rfl, Option.map_some, Option.some.injEq] at hsame
  refine ⟨?_, fun hst ↦ ?_⟩
  · cases hown : (((d.entries c).filter (d.declares name)).filter
        (·.state != .applied)).getLast? with
    | none =>
      rw [hown] at hsame
      exact absurd (hsame ▸ hbt) hstay
    | some en' =>
      rw [hown, Option.getD_some] at hsame
      rw [propertyNamed?_eq, Entry.pick_of_own hown, Option.map_some, hsame]
  · -- a borrowed entry that answers comes last, so it would be the loan or a later one
    obtain ⟨hown, hlast⟩ := Entry.of_pick_applied hpick hst
    have hend : ((d.inState c .applied).filter (d.isProperty name) ++ [t] ++ later).getLast? =
        some en.node := by
      rw [← hlist, ← map_node_filter_declares hown, List.getLast?_map, hlast]
      rfl
    by_cases hnil : later = []
    · rw [hnil] at hend
      have hent : t = en.node := by simpa using hend
      exact hstay (hent ▸ hbt)
    · rw [List.getLast?_append_of_ne_nil _ hnil] at hend
      exact absurd hlt' (Nat.not_lt.mpr (hlater _ (List.mem_of_getLast? hend)).1)

/-- Where a loan was made, there is an answer that stays (one of the block's own, or a later one
without entries), or the loan answers and nothing but older loans stays. -/
theorem lent_cases (hb : FoldedInto d m₀ m c s) (g : Gains d m₀ m c s new)
    (hc : ¬ Below X d.nextId c) (hlt : c < m.document.nextId)
    (ht : m₀.document.propertyNamed? s name = some t)
    (hnew : new (name, t) = some (.fresh t .applied false)) :
    ∃ en, X.propertyNamed? c name = some en.node ∧
      ((¬ Below X d.nextId en.node ∧
          Entry.pick ((e.entries c).filter (e.declares name)) = some en ∧
          (d.propertyNamed? c name = some en.node ∧ en.state ≠ .applied ∨
            X.store? en.node = none ∧ m.document.propertyNamed? c name ≠ some en.node)) ∨
        (en.node = t ∧
          ((e.entries c).filter (e.declares name)).filter (·.state != .applied) = [] ∧
          (e.propertyNamed? c name = d.propertyNamed? c name ∨ ¬ m₀.document.isBlockAt t))) := by
  obtain ⟨en, hpick⟩ : ∃ en, Entry.pick ((X.entries c).filter (X.declares name)) = some en := by
    obtain ⟨later, hlist, -⟩ := h.borrowed_loan g hc hlt ht hnew
    refine Option.ne_none_iff_exists'.mp fun hnone ↦ ?_
    rw [Entry.pick_eq_none_iff] at hnone
    rw [← map_node_filter_applied, hnone] at hlist
    simp at hlist
  have hX : X.propertyNamed? c name = some en.node := by rw [propertyNamed?_eq, hpick]; rfl
  refine ⟨en, hX, ?_⟩
  by_cases hbelow : Below X d.nextId en.node
  · exact .inr (h.loan_answers hb g hc hlt ht hnew hpick hbelow)
  refine .inl ⟨hbelow, ?_, ?_⟩
  · rw [h.withdrawn.declared hc]
    exact Entry.pick_filter hpick (by simpa using hbelow)
  by_cases hsame : m.document.propertyNamed? c name = some en.node
  · exact .inl (h.own_answers hb g hc hlt ht hnew hpick hbelow hsame)
  · obtain ⟨x, hx⟩ : ∃ x, m.document.propertyNamed? c name = some x := by
      rw [g.property, ht, Option.bind_some, hnew, Option.toList_some,
        Entry.pick_append_applied rfl]
      exact ⟨_, rfl⟩
    rcases h.sequel.kept c name x hx with hX' | ⟨-, hstore⟩
    · rw [hX] at hX'
      cases hX'
      exact absurd hx hsame
    · exact .inr ⟨hstore en.node hX, hsame⟩

theorem meets_again (hb : FoldedInto d m₀ m c s)
    (hp : MergedPair e q.document e.nextId c (twin d.nextId e.nextId s))
    (ht : m₀.document.propertyNamed? s name = some t) (htb : m₀.document.isBlockAt t)
    (hx : e.propertyNamed? c name = some x) (hblock : e.isBlockAt x) :
    Meets e q.document c (twin d.nextId e.nextId s) name x (twin d.nextId e.nextId t) := by
  have hb' := h.second.foldedInto_of_pair hp
  have hs := h.le_overlay hb
  refine h.second.meets_of_overlay hb' ((h.second.property_before hb'.receives name).trans hx) ?_
    ?_ ?_
  · rw [isBlockAt_congr (h.second.appended.face x (lt_of_propertyNamed? hx))]
    exact hblock
  · rw [h.twins.propertyNamed? hs, ht]
    rfl
  · have hbt := (h.first.overlaid.parent_of_propertyNamed? hb.below ht).1
    rw [h.twins.isBlockAt (hbt.le h.first.overlaid.rooted.linked.older)]
    exact htb

theorem pair_again (hp : MergedPair d m.document d.nextId c s) :
    MergedPair e q.document e.nextId c (twin d.nextId e.nextId s) := by
  induction hp with
  | top =>
    have htop : twin d.nextId e.nextId d.nextId = e.nextId := by simp [twin]
    rw [htop]
    exact .top
  | @both c s mine t name hp hboth ih =>
    have hb := h.first.foldedInto_of_pair hp
    obtain ⟨ht, -, -, htb⟩ := h.first.meets hb.receives hb.below hboth
    obtain ⟨hmine, hblock⟩ := h.first.answer_of_meets hb hboth
    obtain ⟨-, he, heb⟩ := h.block_kept (h.not_below_of_pair hp) hmine hblock
      (h.not_below_of_lt (lt_of_propertyNamed? hboth.ours))
    exact .both ih (h.meets_again hb ih ht htb he heb)
  | @made c s f t name kind hp hwants hmade ih =>
    have hb := h.first.foldedInto_of_pair hp
    obtain ⟨ht, -, -, htb⟩ := h.first.wants hb.receives hb.below hwants
    obtain ⟨hf, hblock⟩ := h.first.answer_of_made hb hwants hmade
    obtain ⟨-, he, heb⟩ := h.block_kept (h.not_below_of_pair hp) hf hblock
      (h.not_below_of_pair (.made hp hwants hmade))
    exact .both ih (h.meets_again hb ih ht htb he heb)

theorem isBlockAt_before (hx : x < d.nextId) (hlive : X.isLive x) :
    e.isBlockAt x = d.isBlockAt x := by
  have hlt := Nat.lt_of_lt_of_le (Nat.lt_trans hx h.first.appended.next) h.first.grows.next
  rw [h.withdrawn.isBlockAt (h.not_below_of_lt hx),
    isBlockAt_of_shape? (h.sequel.shape x hlt hlive),
    isBlockAt_congr (h.first.face_old hx)]

/-- A declaration of the overlay was folded into a block that is still the answer, or it was lent,
and then not for want of two blocks of the name or of a known kind. -/
theorem folded_or_lent (hp : MergedPair d m.document d.nextId c s) (g : Gains d m₀ m c s new)
    (ht : m₀.document.propertyNamed? s name = some t) :
    (∃ x, MergedPair d m.document d.nextId x t ∧ m₀.document.isBlockAt t ∧
      (∀ en, new (name, t) = some en → en.state = .existing) ∧ ¬ Below X d.nextId x ∧
      X.propertyNamed? c name = some x ∧ e.propertyNamed? c name = some x ∧ e.isBlockAt x) ∨
    (new (name, t) = some (.fresh t .applied false) ∧
      (∀ mine, d.propertyNamed? c name = some mine → d.isBlockAt mine →
        ¬ m₀.document.isBlockAt t) ∧
      ∀ kind, d.propertyNamed? c name = none →
        d.config.kindOf name (m.document.enclosing c) = some kind →
        ¬ m₀.document.isBlockAt t) := by
  have hb := h.first.foldedInto_of_pair hp
  have hc := h.not_below_of_pair hp
  have hbefore := h.first.property_before hb.receives name
  have hfate := g.fate name t ht
  cases hnew : new (name, t) with
  | none =>
    rw [hnew] at hfate
    cases hfate with
    | @both _ mine _ hmine hblock htb _ =>
      have hboth := h.first.meets_of_overlay hb hmine hblock ht htb
      have hpair : MergedPair d m.document d.nextId mine t := .both hp hboth
      obtain ⟨hfound, hmb⟩ := h.first.answer_of_meets hb hboth
      exact .inl ⟨mine, hpair, htb, by simp, h.not_below_of_pair hpair,
        h.block_kept hc hfound hmb (h.not_below_of_pair hpair)⟩
  | some en =>
    rcases h.first.new_cases hb g ht hnew with ⟨kind, f, rfl, -, hface, hwants, hmade⟩ | rfl
    · have hpair : MergedPair d m.document d.nextId f t := .made hp hwants hmade
      obtain ⟨-, -, -, htb⟩ := h.first.wants hb.receives hb.below hwants
      obtain ⟨hfound, hfb⟩ := h.first.answer_of_made hb hwants hmade
      exact .inl ⟨f, hpair, htb, by simp [Entry.fresh], h.not_below_of_pair hpair,
        h.block_kept hc hfound hfb (h.not_below_of_pair hpair)⟩
    · rw [hnew] at hfate
      refine .inr ⟨rfl, ?_⟩
      cases hfate with
      | lent hboth hmade =>
        refine ⟨fun mine hmine hmb ↦ hboth mine (hbefore.trans hmine) ?_, fun kind hnone hkind ↦
          hmade kind (hbefore.trans hnone) (h.first.appended.config ▸ hkind)⟩
        rw [isBlockAt_congr (h.first.appended.face mine (lt_of_propertyNamed? hmine))]
        exact hmb

theorem lt_withdrawn (hx : x < m.document.nextId) : x < e.nextId := by
  rw [h.withdrawn.next]
  exact Nat.lt_of_lt_of_le hx h.sequel.next

/-- A block that the overlay was folded into is still there. -/
theorem isLive_of_pair (hp : MergedPair d m.document d.nextId c s) : X.isLive c := by
  cases hp with
  | top =>
    obtain ⟨n, hn, -⟩ := h.sequel.linked.root
    exact isLive_iff.mpr ⟨n, hn⟩
  | both hp hboth =>
    obtain ⟨hmine, hblock⟩ := h.first.answer_of_meets (h.first.foldedInto_of_pair hp) hboth
    exact isLive_of_propertyNamed? (h.block_kept (h.not_below_of_pair hp) hmine hblock
      (h.not_below_of_lt (lt_of_propertyNamed? hboth.ours))).1
  | made hp hwants hmade =>
    obtain ⟨hf, hblock⟩ := h.first.answer_of_made (h.first.foldedInto_of_pair hp) hwants hmade
    exact isLive_of_propertyNamed? (h.block_kept (h.not_below_of_pair hp) hf hblock
      (h.not_below_of_pair (.made hp hwants hmade))).1

theorem enclosing_again (hp : MergedPair d m.document d.nextId c s) :
    q.document.enclosing c = m.document.enclosing c := by
  have hlt := h.first.lt_of_pair hp
  have hface : e.face? c = X.face? c := by
    rw [face?, h.withdrawn.node c (h.not_below_of_pair hp), face?]
  rw [enclosing_congr (h.second.face_old (h.lt_withdrawn hlt)), enclosing_congr hface,
    enclosing_of_shape? (h.sequel.shape c hlt (h.isLive_of_pair hp))]

theorem config_withdrawn : e.config = d.config := by
  rw [h.withdrawn.config, h.sequel.config, h.first.grows.config, h.first.appended.config]

theorem isSome_store?_of_isBlockAt (hx : ¬ Below X d.nextId x) (hblock : e.isBlockAt x) :
    (X.store? x).isSome := by
  rw [h.withdrawn.isBlockAt hx] at hblock
  exact h.sequel.linked.store_of_isBlock hblock

/-- What was lent does not meet a block afterwards, and the schema does not know it. -/
theorem lent_again (hp : MergedPair d m.document d.nextId c s) (g : Gains d m₀ m c s new)
    (ht : m₀.document.propertyNamed? s name = some t)
    (hnew : new (name, t) = some (.fresh t .applied false))
    (hboth : ∀ mine, d.propertyNamed? c name = some mine → d.isBlockAt mine →
      ¬ m₀.document.isBlockAt t)
    (hmade : ∀ kind, d.propertyNamed? c name = none →
      d.config.kindOf name (m.document.enclosing c) = some kind → ¬ m₀.document.isBlockAt t) :
    (∀ mine, e.propertyNamed? c name = some mine → e.isBlockAt mine →
      ¬ m₀.document.isBlockAt t) ∧
    ∀ kind, e.propertyNamed? c name = none →
      e.config.kindOf name (q.document.enclosing c) = some kind → ¬ m₀.document.isBlockAt t := by
  have hc := h.not_below_of_pair hp
  have hlt := h.first.lt_of_pair hp
  rw [h.enclosing_again hp, h.config_withdrawn]
  obtain ⟨en, hX, ⟨hstay, hpick, hor⟩ | ⟨-, -, hor⟩⟩ :=
    h.lent_cases (h.first.foldedInto_of_pair hp) g hc hlt ht hnew
  · have hen : e.propertyNamed? c name = some en.node := by rw [propertyNamed?_eq, hpick]; rfl
    refine ⟨fun mine hmine hblock ↦ ?_, fun kind hnone ↦ by simp [hen] at hnone⟩
    rw [hen] at hmine
    cases hmine
    rcases hor with ⟨hbefore, -⟩ | ⟨hstore, -⟩
    · rw [h.isBlockAt_before (lt_of_propertyNamed? hbefore) (isLive_of_propertyNamed? hX)] at hblock
      exact hboth en.node hbefore hblock
    · have hsome := h.isSome_store?_of_isBlockAt hstay hblock
      simp [hstore] at hsome
  · rcases hor with hsame | hblock
    · refine ⟨fun mine hmine hblock ↦ hboth mine (hsame ▸ hmine) ?_, fun kind hnone ↦
        hmade kind (hsame ▸ hnone)⟩
      have hlive := isLive_of_propertyNamed? hmine
      have hlt' := lt_of_propertyNamed? (hsame ▸ hmine)
      rw [isLive, h.withdrawn.node mine (h.not_below_of_lt hlt'), ← isLive] at hlive
      rwa [← h.isBlockAt_before hlt' hlive]
    · exact ⟨fun _ _ _ ↦ hblock, fun _ _ _ ↦ hblock⟩

theorem declaration_before (hb : FoldedInto d m₀ m c s)
    (hy : q₀.document.propertyNamed? (twin d.nextId e.nextId s) name = some y)
    (hblock : q₀.document.isBlockAt y) : ∃ t, y = twin d.nextId e.nextId t ∧
      m₀.document.propertyNamed? s name = some t ∧ m₀.document.isBlockAt t := by
  rw [h.twins.propertyNamed? (h.le_overlay hb)] at hy
  obtain ⟨t, ht, rfl⟩ := Option.map_eq_some_iff.mp hy
  have hbt := (h.first.overlaid.parent_of_propertyNamed? hb.below ht).1
  rw [h.twins.isBlockAt (hbt.le h.first.overlaid.rooted.linked.older)] at hblock
  exact ⟨t, rfl, ht, hblock⟩

/-- What is folded together the second time was so the first time, and nothing is made anew. -/
theorem pair_before (hp : MergedPair e q.document e.nextId c y) :
    ∃ s, y = twin d.nextId e.nextId s ∧ MergedPair d m.document d.nextId c s := by
  induction hp with
  | top => exact ⟨d.nextId, by simp [twin], .top⟩
  | @both c _ mine t' name hp hmeets ih =>
    obtain ⟨s, rfl, hp₁⟩ := ih
    have hb := h.first.foldedInto_of_pair hp₁
    have hb' := h.second.foldedInto_of_pair hp
    obtain ⟨ht', -, -, htb'⟩ := h.second.meets hb'.receives hb'.below hmeets
    obtain ⟨t, rfl, ht, htb⟩ := h.declaration_before hb ht' htb'
    obtain ⟨new, g⟩ := h.first.gains hb
    rcases h.folded_or_lent hp₁ g ht with ⟨x, hpx, -, -, -, -, hx, -⟩ | ⟨hnew, hboth, hmade⟩
    · rw [hmeets.ours] at hx
      cases hx
      exact ⟨t, rfl, hpx⟩
    · exact absurd htb ((h.lent_again hp₁ g ht hnew hboth hmade).1 mine hmeets.ours
        hmeets.wasBlock)
  | @made c _ f t' name kind hp hwants _ ih =>
    obtain ⟨s, rfl, hp₁⟩ := ih
    have hb := h.first.foldedInto_of_pair hp₁
    have hb' := h.second.foldedInto_of_pair hp
    obtain ⟨ht', -, -, htb'⟩ := h.second.wants hb'.receives hb'.below hwants
    obtain ⟨t, rfl, ht, htb⟩ := h.declaration_before hb ht' htb'
    obtain ⟨new, g⟩ := h.first.gains hb
    rcases h.folded_or_lent hp₁ g ht with ⟨x, -, -, -, -, -, hx, -⟩ | ⟨hnew, hboth, hmade⟩
    · simp [hwants.lacked] at hx
    · exact absurd htb ((h.lent_again hp₁ g ht hnew hboth hmade).2 kind hwants.lacked
        hwants.known)

/-- A declaration has the same fate twice, but what was made the first time is there the second
time. -/
theorem fate_again (hp : MergedPair d m.document d.nextId c s) (g : Gains d m₀ m c s new)
    {new' : String × NodeId → Option Entry}
    (g' : Gains e q₀ q c (twin d.nextId e.nextId s) new')
    (ht : m₀.document.propertyNamed? s name = some t) :
    (∃ x, (∀ en, new (name, t) = some en → en.state = .existing) ∧
      new' (name, twin d.nextId e.nextId t) = none ∧ ¬ Below X d.nextId x ∧
      X.propertyNamed? c name = some x ∧ e.propertyNamed? c name = some x) ∨
    (new (name, t) = some (.fresh t .applied false) ∧
      new' (name, twin d.nextId e.nextId t) =
        some (.fresh (twin d.nextId e.nextId t) .applied false)) := by
  have hb := h.first.foldedInto_of_pair hp
  have hb' := h.second.foldedInto_of_pair (h.pair_again hp)
  have htwin := h.twins.propertyNamed? (h.le_overlay hb) name
  rw [ht, Option.map_some] at htwin
  have hfate := g'.fate name _ htwin
  rcases h.folded_or_lent hp g ht with ⟨x, -, htb, hold, hstay, hX, hx, hxb⟩ | ⟨hnew, hboth, hmade⟩
  · have hmeets := h.meets_again hb (h.pair_again hp) ht htb hx hxb
    obtain ⟨-, hmine, hblock, htb'⟩ := h.second.meets hb'.receives hb'.below hmeets
    exact .inl ⟨x, hold, (hfate.of_both hmine hblock htb').1, hstay, hX, hx⟩
  · obtain ⟨hboth', hmade'⟩ := h.lent_again hp g ht hnew hboth hmade
    have hbt := (h.first.overlaid.parent_of_propertyNamed? hb.below ht).1
    have hblock := h.twins.isBlockAt (hbt.le h.first.overlaid.rooted.linked.older)
    have hbefore := h.second.property_before hb'.receives name
    refine .inr ⟨hnew, hfate.of_lent (fun mine hmine hmb ↦ ?_) fun kind hnone hkind ↦ ?_⟩
    · rw [hbefore] at hmine
      rw [isBlockAt_congr (h.second.appended.face mine (lt_of_propertyNamed? hmine))] at hmb
      rw [hblock]
      exact hboth' mine hmine hmb
    · rw [hbefore] at hnone
      rw [h.second.appended.config] at hkind
      rw [hblock]
      exact hmade' kind hnone hkind

theorem not_below_of_undeclared (g : Gains d m₀ m c s new) (hc : ¬ Below X d.nextId c)
    (hlt : c < m.document.nextId) (ht : m₀.document.propertyNamed? s name = none)
    (ha : X.propertyNamed? c name = some a) : ¬ Below X d.nextId a := by
  obtain ⟨later, hlist, hlater⟩ := h.borrowed g hc hlt name
  obtain ⟨en, hen, hdecl, rfl, -⟩ := pick_of_propertyNamed? ha
  by_cases hst : en.state = .applied
  · have hmem : en.node ∈ (X.inState c .applied).filter (X.isProperty name) := by
      rw [← map_node_filter_applied]
      refine List.mem_map_of_mem (List.mem_filter.mpr ⟨List.mem_filter.mpr ⟨hen, hdecl⟩, ?_⟩)
      simpa using hst
    rw [hlist, ht, Option.bind_none, Option.toList_none, List.filter_nil, List.map_nil,
      List.append_nil] at hmem
    rcases List.mem_append.mp hmem with hmem | hmem
    · exact h.not_below_of_borrowed (List.mem_filter.mp hmem).1
    · exact (hlater _ hmem).2
  · exact h.not_below_of_own hc hlt hen hst

theorem step_of_pair (hp : MergedPair d m.document d.nextId c s) (name : String) :
    (X.propertyNamed? c name = none → q.document.propertyNamed? c name = none) ∧
    ∀ a, X.propertyNamed? c name = some a →
      ¬ Below X d.nextId a ∧ q.document.propertyNamed? c name = some a ∨
      Below m₀.document d.nextId a ∧
        q.document.propertyNamed? c name = some (twin d.nextId e.nextId a) ∨
      X.store? a = none ∧ m.document.propertyNamed? c name ≠ some a ∧
        (q.document.propertyNamed? c name).isSome := by
  have hb := h.first.foldedInto_of_pair hp
  have hc := h.not_below_of_pair hp
  have hlt := h.first.lt_of_pair hp
  obtain ⟨new, g⟩ := h.first.gains hb
  obtain ⟨new', g'⟩ := h.second.gains (h.second.foldedInto_of_pair (h.pair_again hp))
  have hq := g'.property name
  rw [h.twins.propertyNamed? (h.le_overlay hb)] at hq
  -- where the second merge adds nothing, an answer that stays goes on to answer
  have hkeep : q.document.propertyNamed? c name = e.propertyNamed? c name → ∀ a,
      X.propertyNamed? c name = some a → ¬ Below X d.nextId a →
      q.document.propertyNamed? c name = some a := fun hsame a ha hstay ↦
    hsame.trans (h.withdrawn.propertyNamed?_of_some hc ha hstay)
  cases ht : m₀.document.propertyNamed? s name with
  | none =>
    rw [ht, Option.map_none, Option.bind_none, Option.toList_none, List.append_nil,
      ← propertyNamed?_eq] at hq
    refine ⟨fun hnone ↦ hq.trans (h.withdrawn.propertyNamed?_of_none hc hnone),
      fun a ha ↦ .inl ?_⟩
    have hstay := h.not_below_of_undeclared g hc hlt ht ha
    exact ⟨hstay, hkeep hq a ha hstay⟩
  | some t =>
    rw [ht, Option.map_some, Option.bind_some] at hq
    rcases h.fate_again hp g g' ht with ⟨x, -, hnew', hstay, hX, -⟩ | ⟨hnew, hnew'⟩
    · rw [hnew', Option.toList_none, List.append_nil, ← propertyNamed?_eq] at hq
      refine ⟨fun hnone ↦ by simp [hX] at hnone, fun a ha ↦ .inl ?_⟩
      have hxa := hX.symm.trans ha
      cases hxa
      exact ⟨hstay, hkeep hq x hX hstay⟩
    · rw [hnew', Option.toList_some, Entry.pick_append_applied rfl, Option.map_some] at hq
      obtain ⟨en, hX, hcases⟩ := h.lent_cases hb g hc hlt ht hnew
      refine ⟨fun hnone ↦ by simp [hX] at hnone, fun a ha ↦ ?_⟩
      rw [hX] at ha
      cases ha
      rcases hcases with ⟨hstay, hpick, ⟨-, hown⟩ | ⟨hstore, hne⟩⟩ | ⟨hen, hnone, -⟩
      · refine .inl ⟨hstay, ?_⟩
        rw [hq, ← Entry.filter_pick, hpick, Option.filter_some, if_pos (by simpa using hown)]
        rfl
      · exact .inr (.inr ⟨hstore, hne, by rw [hq]; rfl⟩)
      · rw [hen]
        refine .inr (.inl ⟨(h.first.overlaid.parent_of_propertyNamed? hb.below ht).1, ?_⟩)
        rw [hq, hnone]
        rfl

theorem not_below_of_unpaired (hc : ¬ Below X d.nextId c)
    (hno : ∀ s, ¬ MergedPair d m.document d.nextId c s) {en : Entry} (hen : en ∈ X.entries c) :
    ¬ Below X d.nextId en.node := by
  by_cases hold : c < m.document.nextId
  · by_cases hst : en.state = .applied
    · have hcd : c < d.nextId := by
        refine Nat.lt_of_not_le fun hle ↦ ?_
        by_cases hover : c < m₀.document.nextId
        · exact hc ((h.below_iff hold).mpr ⟨hle, hover⟩)
        · obtain ⟨s, hp⟩ := h.first.pair_of_new (Nat.not_lt.mp hover) hold
          exact hno s hp
      obtain ⟨extra, hextra, hnode⟩ := h.sequel.loans c hold hc
      have hmem : en.node ∈ X.inState c .applied := by
        obtain ⟨st, hs, hen⟩ := mem_entries.mp hen
        exact mem_inState.mpr ⟨st, hs, en, hen, hst, rfl⟩
      rw [hextra] at hmem
      rcases List.mem_append.mp hmem with hmem | hmem
      · obtain ⟨st, hs, en', hen', -, he⟩ := mem_inState.mp hmem
        have hentry : en' ∈ d.entries c := by
          rw [← h.first.entries_of_unpaired hcd hno, entries_eq hs]
          exact hen'
        rw [← he]
        exact h.not_below_of_lt (h.first.before.lt_of_mem_entries hentry)
      · exact (hnode _ hmem).2
    · exact h.not_below_of_own hc hold hen hst
  · exact h.sequel.later c (Nat.not_lt.mp hold) hc en hen

theorem step_of_unpaired (hc : ¬ Below X d.nextId c) (hlt : c < X.nextId)
    (hno : ∀ s, ¬ MergedPair d m.document d.nextId c s) (name : String) :
    q.document.propertyNamed? c name = X.propertyNamed? c name ∧
      ∀ a, X.propertyNamed? c name = some a → ¬ Below X d.nextId a := by
  have hq : q.document.propertyNamed? c name = e.propertyNamed? c name := by
    refine propertyNamed?_congr (h.second.entries_of_unpaired (h.withdrawn.next ▸ hlt) ?_)
      fun en hen ↦ h.second.face_old (h.second.before.lt_of_mem_entries hen)
    intro y hy
    obtain ⟨s, -, hp⟩ := h.pair_before hy
    exact hno s hp
  have hanswer : ∀ a, X.propertyNamed? c name = some a → ¬ Below X d.nextId a := by
    intro a ha
    obtain ⟨en, hen, -, rfl, -⟩ := pick_of_propertyNamed? ha
    exact h.not_below_of_unpaired hc hno hen
  refine ⟨?_, hanswer⟩
  rw [hq]
  cases ha : X.propertyNamed? c name with
  | none => exact h.withdrawn.propertyNamed?_of_none hc ha
  | some a => exact h.withdrawn.propertyNamed?_of_some hc ha (hanswer a ha)

end Renewed

/-- `y` stands after the second merge for what `x` stood for before: it is the same node, or `x` is
in the overlay and `y` in its place in the new one. -/
def Stands (d : Document) (m₀ : Merging) (X e : Document) (x y : NodeId) : Prop :=
  (y = x ∧ x < X.nextId ∧ ¬ Below X d.nextId x) ∨
    (y = twin d.nextId e.nextId x ∧ Below m₀.document d.nextId x)

namespace Renewed

variable (h : Renewed d m₀ m X e q₀ q)

include h

theorem stands_root : Stands d m₀ X e root root := by
  obtain ⟨n, hn, -⟩ := h.first.before.root
  obtain ⟨n', hn', -⟩ := h.sequel.linked.root
  exact .inl ⟨rfl, lt_nextId hn', h.not_below_of_lt (lt_nextId hn)⟩

/-- One lookup: what stands for a block answers with what stands for its answer, or with something
else where the answer is a later one without entries. -/
theorem step (hxy : Stands d m₀ X e x y) (name : String) :
    (m.document.propertyNamed? x name = none → X.propertyNamed? x name = none →
      q.document.propertyNamed? y name = none) ∧
    ∀ a, X.propertyNamed? x name = some a →
      (∃ b, q.document.propertyNamed? y name = some b ∧ Stands d m₀ X e a b) ∨
      X.store? a = none ∧ m.document.propertyNamed? x name ≠ some a ∧
        (q.document.propertyNamed? y name).isSome := by
  rcases hxy with ⟨rfl, hlt, hy⟩ | ⟨rfl, hx⟩
  · by_cases hpair : ∃ s, MergedPair d m.document d.nextId y s
    · obtain ⟨s, hp⟩ := hpair
      obtain ⟨hnone, hsome⟩ := h.step_of_pair hp name
      refine ⟨fun _ ↦ hnone, fun a ha ↦ ?_⟩
      rcases hsome a ha with ⟨hstay, hq⟩ | ⟨hbelow, hq⟩ | hleaf
      · exact .inl ⟨a, hq, .inl ⟨rfl, lt_of_propertyNamed? ha, hstay⟩⟩
      · exact .inl ⟨_, hq, .inr ⟨rfl, hbelow⟩⟩
      · exact .inr hleaf
    · obtain ⟨hq, hstay⟩ := h.step_of_unpaired hy hlt (not_exists.mp hpair) name
      rw [hq]
      refine ⟨fun _ hnone ↦ hnone, fun a ha ↦ .inl ⟨a, ha, .inl ⟨rfl, ?_, hstay a ha⟩⟩⟩
      exact lt_of_propertyNamed? ha
  · have hle := hx.le h.first.overlaid.rooted.linked.older
    have hlt := h.first.overlaid.lt_of_below hx
    have hq := h.property_twin hle hlt name
    have hover := h.first.property_overlay hx name
    cases hm : m.document.propertyNamed? x name with
    | none =>
      have hX := h.sequel.shut x name (Nat.lt_of_lt_of_le hlt h.first.grows.next)
        (h.below_overlay hx) hm
      rw [hm, Option.map_none] at hq
      exact ⟨fun _ _ ↦ hq, fun a ha ↦ by simp [hX] at ha⟩
    | some z =>
      rw [hm, Option.map_some] at hq
      have hz := (h.first.overlaid.parent_of_propertyNamed? hx (hover ▸ hm)).1
      refine ⟨nofun, fun a ha ↦ ?_⟩
      by_cases hza : z = a
      · subst hza
        exact .inl ⟨_, hq, .inr ⟨rfl, hz⟩⟩
      · refine .inr ⟨?_, fun he ↦ hza (Option.some.inj he), by rw [hq]; rfl⟩
        rcases h.sequel.kept x name z hm with hX | ⟨-, hstore⟩
        · rw [ha] at hX
          cases hX
          exact absurd rfl hza
        · exact hstore a ha

theorem follow_isSome (hxy : Stands d m₀ X e x y) (path : List String)
    (hpath : (X.follow? x path).isSome) : (q.document.follow? y path).isSome := by
  induction path generalizing x y with
  | nil => rfl
  | cons name path ih =>
    rw [follow?_cons] at hpath ⊢
    obtain ⟨z, hz⟩ := Option.isSome_iff_exists.mp hpath
    obtain ⟨a, ha, hrest⟩ := Option.bind_eq_some_iff.mp hz
    rcases (h.step hxy name).2 a ha with ⟨b, hb, hab⟩ | ⟨hstore, -, hsome⟩
    · rw [hb, Option.bind_some]
      exact ih hab (by rw [hrest]; rfl)
    · -- an answer without entries is the end of the path
      cases path with
      | nil =>
        obtain ⟨b, hb⟩ := Option.isSome_iff_exists.mp hsome
        rw [hb]
        rfl
      | cons name' path =>
        rw [follow?_cons, propertyNamed?_eq, entries, hstore] at hrest
        simp [Entry.pick] at hrest

end Renewed

namespace Renewed

variable (h : Renewed d m₀ m m.document e q₀ q)

include h

/-- If nothing has happened in between, every path leads to what stands for the node that it led to,
or nowhere either time. -/
theorem follow_rel (hxy : Stands d m₀ m.document e x y) (path : List String) :
    Option.Rel (Stands d m₀ m.document e) (m.document.follow? x path)
      (q.document.follow? y path) := by
  induction path generalizing x y with
  | nil => exact .some hxy
  | cons name path ih =>
    obtain ⟨hnone, hsome⟩ := h.step hxy name
    rw [follow?_cons, follow?_cons]
    cases ha : m.document.propertyNamed? x name with
    | none =>
      rw [hnone ha ha]
      exact .none
    | some a =>
      rcases hsome a ha with ⟨b, hb, hab⟩ | ⟨-, hne, -⟩
      · rw [hb]
        exact ih hab
      · exact absurd ha hne

end Renewed

end BuildScript.Document
