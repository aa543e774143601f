import Mathlib.Algebra.BigOperators.Group.List.Basic
import Mathlib.Algebra.GroupWithZero.Nat
import BuildScript.Proofs.Folding.Renewal

namespace BuildScript.Document

variable {d d' e : Document} {m₀ m q₀ q : Merging} {a b c s x N : NodeId}

theorem entries_of_le (hl : Linked d) (hc : d.nextId ≤ c) : d.entries c = [] := by
  rw [entries, hl.store?_of_node?_eq_none (node?_of_le hc)]

def appliedAt (d : Document) (c : NodeId) : Nat := (d.entries c).countP (·.state = .applied)

theorem appliedCount_eq_sum (hl : Linked d) (hN : d.nextId ≤ N) :
    d.appliedCount = ((List.range N).map d.appliedAt).sum := by
  obtain ⟨k, rfl⟩ := Nat.exists_eq_add_of_le hN
  have hzero :
      ((List.range k).map (d.nextId + ·)).map d.appliedAt = (List.range k).map fun _ ↦ 0 := by
    rw [List.map_map]
    refine List.map_congr_left fun i _ ↦ ?_
    rw [Function.comp_apply, appliedAt, entries_of_le hl (Nat.le_add_right _ _)]
    rfl
  rw [appliedCount, List.countP_flatMap, List.range_add, List.map_append, List.sum_append, hzero]
  rw [List.map_const', List.sum_replicate_nat, Nat.mul_zero, Nat.add_zero]
  rfl

def liveBetween (d : Document) (a b : NodeId) : Nat := (List.range' a (b - a)).countP d.isLive

theorem liveBetween_add (d : Document) (hab : a ≤ b) (hbc : b ≤ c) :
    d.liveBetween a c = d.liveBetween a b + d.liveBetween b c := by
  have hsplit : List.range' a (c - a) = List.range' a (b - a) ++ List.range' b (c - b) := by
    have happend := @List.range'_append a (b - a) (c - b) 1
    rw [Nat.one_mul, Nat.add_sub_cancel' hab] at happend
    rw [happend]
    congr 1
    lia
  rw [liveBetween, hsplit, List.countP_append]
  rfl

theorem mem_range'_sub (h : x ∈ List.range' a (b - a)) : a ≤ x ∧ x < b := by
  rw [List.mem_range'_1] at h
  lia

theorem liveBetween_congr (h : ∀ x, a ≤ x → x < b → d'.isLive x = d.isLive x) :
    d'.liveBetween a b = d.liveBetween a b := by
  refine List.countP_congr fun x hx ↦ ?_
  obtain ⟨hle, hlt⟩ := mem_range'_sub hx
  rw [h x hle hlt]

theorem liveBetween_of_live (h : ∀ x, a ≤ x → x < b → d.isLive x) : d.liveBetween a b = b - a := by
  rw [liveBetween, List.countP_eq_length.mpr, List.length_range']
  intro x hx
  obtain ⟨hle, hlt⟩ := mem_range'_sub hx
  exact h x hle hlt

theorem liveBetween_of_dead (h : ∀ x, a ≤ x → x < b → d.node? x = none) :
    d.liveBetween a b = 0 := by
  refine List.countP_eq_zero.mpr fun x hx ↦ ?_
  obtain ⟨hle, hlt⟩ := mem_range'_sub hx
  simp [isLive, h x hle hlt]

theorem liveCount_eq (d : Document) : d.liveCount = d.liveBetween 0 d.nextId := by
  rw [liveCount, Table.ids, liveBetween, List.countP_eq_length_filter, Nat.sub_zero,
    ← List.range_eq_range']
  rfl

theorem isLive_of_face? (h : d'.face? x = d.face? x) : d'.isLive x = d.isLive x := by
  have hsome := congrArg Option.isSome h
  rwa [face?, Option.isSome_map, face?, Option.isSome_map] at hsome

namespace Renewed

variable {X : Document} (h : Renewed d m₀ m X e q₀ q)

include h

/-- The second merge makes nothing but its overlay. -/
theorem next_again : q.document.nextId = q₀.document.nextId := by
  refine Nat.le_antisymm (Nat.le_of_not_lt fun hlt ↦ ?_) h.second.grows.next
  obtain ⟨t, hp⟩ := h.second.pair_of_new (Nat.le_refl _) hlt
  obtain ⟨s, -, hp₁⟩ := h.pair_before hp
  have hold := h.lt_withdrawn (h.first.lt_of_pair hp₁)
  exact absurd (Nat.lt_trans hold h.second.appended.next) (Nat.lt_irrefl _)

end Renewed

namespace Renewed

variable (h : Renewed d m₀ m m.document e q₀ q)

include h

theorem liveCount_again : q.document.liveCount = m.document.liveCount := by
  have hnext := h.withdrawn.next
  have htwin := h.twins.next
  have hagain := h.next_again
  have hstart := Nat.le_of_lt h.first.appended.next
  have hgrow := h.first.grows.next
  have hsecond := Nat.le_of_lt h.second.appended.next
  have hsame : ∀ x, x < m.document.nextId → ¬ Below m.document d.nextId x →
      q.document.isLive x = m.document.isLive x := by
    intro x hx hb
    rw [isLive_of_face? (h.second.face_old (hnext ▸ hx)), isLive, isLive, h.withdrawn.node x hb]
  have hover : m.document.liveBetween d.nextId m₀.document.nextId =
      m₀.document.nextId - d.nextId := by
    refine liveBetween_of_live fun x hle hlt ↦ ?_
    rw [isLive_of_face? (h.first.grows.face x hlt)]
    exact h.first.overlaid.isLive_of_below (h.first.appended.below x hle hlt)
  have hover' : q.document.liveBetween e.nextId q.document.nextId =
      q.document.nextId - e.nextId := by
    refine liveBetween_of_live fun x hle hlt ↦ ?_
    rw [hagain] at hlt
    rw [isLive_of_face? (h.second.grows.face x hlt)]
    exact h.second.overlaid.isLive_of_below (h.second.appended.below x hle hlt)
  have hgone : q.document.liveBetween d.nextId m₀.document.nextId = 0 := by
    refine liveBetween_of_dead fun x hle hlt ↦ ?_
    have hx := Nat.lt_of_lt_of_le hlt hgrow
    have hface := h.second.face_old (hnext ▸ hx)
    rw [face?, face?, h.withdrawn.gone x ((h.below_iff hx).mpr ⟨hle, hlt⟩)] at hface
    simpa using hface
  have hbefore : q.document.liveBetween 0 d.nextId = m.document.liveBetween 0 d.nextId :=
    liveBetween_congr fun x _ hlt ↦
      hsame x (Nat.lt_of_lt_of_le hlt (Nat.le_trans hstart hgrow)) (h.not_below_of_lt hlt)
  have hmade : q.document.liveBetween m₀.document.nextId m.document.nextId =
      m.document.liveBetween m₀.document.nextId m.document.nextId :=
    liveBetween_congr fun x hle hlt ↦ hsame x hlt fun hb ↦
      absurd ((h.below_iff hlt).mp hb).2 (Nat.not_lt.mpr hle)
  rw [liveCount_eq, liveCount_eq, liveBetween_add _ (Nat.zero_le _) (hnext ▸ hagain ▸ hsecond),
    liveBetween_add _ (Nat.zero_le _) (Nat.le_trans hstart hgrow),
    liveBetween_add _ hstart hgrow, liveBetween_add m.document (Nat.zero_le _)
      (Nat.le_trans hstart hgrow), liveBetween_add m.document hstart hgrow, ← hnext]
  simp only [twin] at htwin
  lia

/-- Of what a block has got from the overlay nothing that is borrowed stays without it. -/
theorem countP_stays (hp : MergedPair d m.document d.nextId c s)
    {new : String × NodeId → Option Entry} (g : Gains d m₀ m c s new)
    {p : Entry → Bool} (hstay : ∀ en, p en → ¬ Below m.document d.nextId en.node) :
    (((m₀.document.propertyMap s).filterMap new).filter p).countP (·.state = .applied) = 0 := by
  have hb := h.first.foldedInto_of_pair hp
  refine List.countP_eq_zero.mpr fun en hen ↦ ?_
  obtain ⟨hen, hpen⟩ := List.mem_filter.mp hen
  obtain ⟨⟨name, t⟩, hq, hnew⟩ := List.mem_filterMap.mp hen
  have ht := mem_propertyMap.mp hq
  rcases h.first.new_cases hb g ht hnew with ⟨_, _, rfl, -⟩ | rfl
  · simp [Entry.fresh]
  · have hbt := h.below_overlay (h.first.overlaid.parent_of_propertyNamed? hb.below ht).1
    exact absurd hbt (hstay _ hpen)

/-- What is borrowed the first time is borrowed the second time. -/
theorem countP_again (hp : MergedPair d m.document d.nextId c s)
    {new new' : String × NodeId → Option Entry} (g : Gains d m₀ m c s new)
    (g' : Gains e q₀ q c (twin d.nextId e.nextId s) new') :
    ((q₀.document.propertyMap (twin d.nextId e.nextId s)).filterMap new').countP
      (·.state = .applied) =
      ((m₀.document.propertyMap s).filterMap new).countP (·.state = .applied) := by
  have hle := h.le_overlay (h.first.foldedInto_of_pair hp)
  rw [List.countP_filterMap, List.countP_filterMap, (h.twins.propertyMap_perm hle).countP_eq,
    List.countP_map]
  refine List.countP_congr fun p hq ↦ ?_
  obtain ⟨name, t⟩ := p
  rcases h.fate_again hp g g' (mem_propertyMap.mp hq) with ⟨_, hexisting, hnew', -⟩ |
    ⟨hnew, hnew'⟩
  · cases hnew : new (name, t) with
    | none => simp [hnew']
    | some en => simp [hnew', hexisting en hnew]
  · simp [hnew, hnew', Entry.fresh]

/-- A block that the overlay is folded into borrows as much the second time as the first time, and
nothing in between. -/
theorem appliedAt_of_pair (hp : MergedPair d m.document d.nextId c s) :
    m.document.appliedAt c + e.appliedAt c = q.document.appliedAt c + d.appliedAt c := by
  classical
  have hc := h.not_below_of_pair hp
  obtain ⟨new, g⟩ := h.first.gains (h.first.foldedInto_of_pair hp)
  obtain ⟨new', g'⟩ := h.second.gains (h.second.foldedInto_of_pair (h.pair_again hp))
  have hold : (d.entries c).filter (fun en ↦ ¬ Below m.document d.nextId en.node) =
      d.entries c :=
    List.filter_eq_self.mpr fun en hen ↦ by
      simpa using h.not_below_of_lt (h.first.before.lt_of_mem_entries hen)
  have he : e.appliedAt c = d.appliedAt c := by
    rw [appliedAt, h.withdrawn.entries c hc, g.entries, List.filter_append, hold,
      List.countP_append, h.countP_stays hp g fun en hen ↦ by simpa using hen]
    rfl
  have hm : m.document.appliedAt c = d.appliedAt c +
      ((m₀.document.propertyMap s).filterMap new).countP (·.state = .applied) := by
    rw [appliedAt, g.entries, List.countP_append]
    rfl
  have hq : q.document.appliedAt c = e.appliedAt c +
      ((m₀.document.propertyMap s).filterMap new).countP (·.state = .applied) := by
    rw [appliedAt, g'.entries, List.countP_append, h.countP_again hp g g']
    rfl
  lia

theorem appliedAt_of_unpaired (hcd : c < d.nextId)
    (hno : ∀ s, ¬ MergedPair d m.document d.nextId c s) :
    m.document.appliedAt c + e.appliedAt c = q.document.appliedAt c + d.appliedAt c := by
  classical
  have hlt := Nat.lt_of_lt_of_le (Nat.lt_trans hcd h.first.appended.next) h.first.grows.next
  have hm := h.first.entries_of_unpaired hcd hno
  have hq := h.second.entries_of_unpaired (h.lt_withdrawn hlt) fun y hy ↦ by
    obtain ⟨s, -, hp⟩ := h.pair_before hy
    exact hno s hp
  have he : e.entries c = d.entries c := by
    rw [h.withdrawn.entries c (h.not_below_of_lt hcd), hm]
    exact List.filter_eq_self.mpr fun en hen ↦ by
      simpa using h.not_below_of_lt (h.first.before.lt_of_mem_entries hen)
  simp only [appliedAt, hm, hq, he]

theorem appliedAt_of_le (hcd : d.nextId ≤ c)
    (hno : ∀ s, ¬ MergedPair d m.document d.nextId c s) :
    m.document.appliedAt c + e.appliedAt c = q.document.appliedAt c + d.appliedAt c := by
  have hnil : ∀ {D : Document}, D.entries c = [] → D.appliedAt c = 0 := fun hD ↦ by
    rw [appliedAt, hD]
    rfl
  have hplain : ∀ {D : Document}, (∀ en ∈ D.entries c, en.state = .existing) →
      D.appliedAt c = 0 := fun hD ↦
    List.countP_eq_zero.mpr fun en hen ↦ by simp [hD en hen]
  rw [hnil (D := d) (entries_of_le h.first.before hcd)]
  by_cases hlt : c < m.document.nextId
  · have hover : c < m₀.document.nextId := by
      refine Nat.lt_of_not_le fun hle ↦ ?_
      obtain ⟨s, hp⟩ := h.first.pair_of_new hle hlt
      exact hno s hp
    have hbelow := h.first.appended.below c hcd hover
    have he : e.entries c = [] := h.withdrawn.empty c (h.below_overlay hbelow)
    have hq := h.second.entries_of_unpaired (h.lt_withdrawn hlt) fun y hy ↦ by
      obtain ⟨s, -, hp⟩ := h.pair_before hy
      exact hno s hp
    have hm := h.first.grows.entries hover (h.first.not_overlaps_overlay hbelow)
    rw [hnil he, hnil (hq.trans he),
      hplain fun en hen ↦ (h.twins.own c hcd en (hm ▸ hen)).2]
  · have hle : e.nextId ≤ c := by
      rw [h.withdrawn.next]
      exact Nat.not_lt.mp hlt
    rw [hnil (entries_of_le h.first.after (Nat.not_lt.mp hlt)),
      hnil (entries_of_le h.second.before hle)]
    by_cases hover : c < q₀.document.nextId
    · have hq := h.second.grows.entries hover
        (h.second.not_overlaps_overlay (h.second.appended.below c hle hover))
      obtain ⟨x, hx, rfl⟩ : ∃ x, d.nextId ≤ x ∧ c = twin d.nextId e.nextId x := by
        refine ⟨c - e.nextId + d.nextId, Nat.le_add_left _ _, ?_⟩
        simp only [twin]
        lia
      rw [hplain fun en hen ↦ ?_]
      rw [hq, h.twins.entries hx] at hen
      obtain ⟨en', hen', rfl⟩ := List.mem_map.mp hen
      exact (h.twins.own x hx en' hen').2
    · rw [hnil (entries_of_le h.second.after (h.next_again ▸ Nat.not_lt.mp hover))]

theorem applied_again (hm : m₀.applied = 0) (hq : q₀.applied = 0) : q.applied = m.applied := by
  have hfirst := h.first.grows.applied
  have hsecond := h.second.grows.applied
  rw [hm, h.first.appended.applied] at hfirst
  rw [hq, h.second.appended.applied] at hsecond
  have hnext := Nat.le_trans (Nat.le_of_lt h.second.appended.next) h.second.grows.next
  have hme : m.document.nextId ≤ q.document.nextId := h.withdrawn.next ▸ hnext
  have hdm := Nat.le_trans (Nat.le_of_lt h.first.appended.next) h.first.grows.next
  have hsum : m.document.appliedCount + e.appliedCount =
      q.document.appliedCount + d.appliedCount := by
    rw [appliedCount_eq_sum h.first.after hme, appliedCount_eq_sum h.second.before hnext,
      appliedCount_eq_sum h.second.after (Nat.le_refl _),
      appliedCount_eq_sum h.first.before (Nat.le_trans hdm hme), ← List.sum_map_add,
      ← List.sum_map_add]
    congr 1
    refine List.map_congr_left fun c _ ↦ ?_
    by_cases hpair : ∃ s, MergedPair d m.document d.nextId c s
    · obtain ⟨s, hp⟩ := hpair
      exact h.appliedAt_of_pair hp
    · by_cases hcd : c < d.nextId
      · exact h.appliedAt_of_unpaired hcd (not_exists.mp hpair)
      · exact h.appliedAt_of_le (Nat.not_lt.mp hcd) (not_exists.mp hpair)
  lia

end Renewed

end BuildScript.Document
