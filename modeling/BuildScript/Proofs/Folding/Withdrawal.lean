import BuildScript.Proofs.Folding.Region
import BuildScript.Proofs.Folding.Growth
import BuildScript.Proofs.LentInOverlays

namespace BuildScript.Document

variable {d d' e other : Document} {b c o x : NodeId} {n : Node} {source : DocumentId}
  {l : List NodeId}

open Classical in
/-- From `d` to `e` the tree of `o` is put away, with its entries in other blocks. -/
structure Withdrawn (o : NodeId) (d e : Document) : Prop where
  next : e.nextId = d.nextId
  config : e.config = d.config
  node : ∀ x, ¬ Below d o x → e.node? x = d.node? x
  gone : ∀ x, Below d o x → e.node? x = none
  entries : ∀ c, ¬ Below d o c → e.entries c = (d.entries c).filter fun en ↦ ¬ Below d o en.node
  empty : ∀ c, Below d o c → e.entries c = []

theorem config_foldl_evict (l : List NodeId) (d : Document) :
    (l.foldl evict d).config = d.config := by
  refine List.foldlRecOn (motive := fun d' : Document ↦ d'.config = d.config) l _ rfl
    fun d' hd x _ ↦ ?_
  cases hn : d'.node? x with
  | none => rw [evict_of_none hn, hd]
  | some n =>
    have hpurge : (d'.purgeFrom x n.holders).config = d'.config :=
      List.foldlRecOn (motive := fun d'' : Document ↦ d''.config = d'.config) n.holders
        (fun d holder ↦ d.modifyStore holder (·.purge x)) rfl fun _ h _ _ ↦ h
    rw [evict_of_some hn]
    exact hpurge.trans hd

theorem supersede_of_new (hnew : d.overlaySources.lookup source = none) :
    d.supersede source = (none, d) := by
  rw [supersede, hnew]

def ListedFrom (o : NodeId) (d : Document) : Prop :=
  ∀ x n p, o ≤ x → d.node? x = some n → n.parent = some p → ∃ s, d.store? p = some s ∧ x ∈ s.nodes

theorem HasStoresAbove.listedFrom {D : NodeId → Prop} {ov : List NodeId} (h : HasStoresAbove o d)
    (hh : ListsOwned D ov (fun _ ↦ False) d) : ListedFrom o d := by
  intro x n p hx hn hp
  obtain ⟨s, hs⟩ := Option.isSome_iff_exists.mp (h x n p hx hn hp)
  exact ⟨s, hs, (hh.listed x n p s hn hp hs).resolve_left not_false⟩

def ListedBelow (o : NodeId) (d : Document) : Prop :=
  ∀ x n p, Below d o x → d.node? x = some n → n.parent = some p →
    ∃ s, d.store? p = some s ∧ x ∈ s.nodes

theorem ListedFrom.below (h : ListedFrom o d) (ho : d.Older) : ListedBelow o d :=
  fun x n p hb ↦ h x n p (hb.le ho)

/-- All that lies below a node is in its tree if every parent there lists its children. -/
theorem ListedBelow.mem_ownedSubtree_iff (h : ListedBelow o d) (ho : d.Older) (hlive : d.isLive o) :
    x ∈ d.ownedSubtree o ↔ Below d o x := by
  refine ⟨ownedSubtree_below, fun hb ↦ ?_⟩
  induction hb with
  | refl => exact self_mem_ownedSubtree hlive
  | @step p x n hb hn hp ih =>
    exact ownedSubtree_child ho ih
      (mem_ownedChildren.mpr ⟨h x n p (.step hb hn hp) hn hp, n, hn, hp⟩)

theorem HasStoresAbove.merge (h : HasStoresAbove o d) (hl : Linked d)
    (hnew : d.overlaySources.lookup other.id = none) : HasStoresAbove o (d.merge other).2 := by
  refine (merge_induction (C := HasStoresAbove o) (M := HasStoresAbove o) hl other
    (fun x n p hx hn hp ↦ ?_)
    (fun d' b n s hd _ hcov _ hs ↦ hcov.enroll hd (by rw [hs]; rfl) rfl)
    (fun d' _ _ hcov x n p hx hn hp ↦ hcov.alike (.recordEdges d' _) x n p hx hn hp)
    (fun d' b t n p _ hcov _ _ _ _ _ _ _ ↦ hcov.lend)
    fun d' b name kind hd hcov hs ↦ hcov.enroll hd hs rfl).2
  rw [supersede_of_new hnew] at hn ⊢
  rcases node?_of_push hn with ⟨-, rfl⟩ | hn
  · simp [overlayNode] at hp
  · have hsome := h x n p hx hn hp
    obtain ⟨s, hs⟩ := Option.isSome_iff_exists.mp hsome
    rwa [store?_push hl.sizes, if_neg (Nat.ne_of_lt (hl.lt_of_store? hs))]

theorem overlays_merge (hl : Linked d) (hnew : d.overlaySources.lookup other.id = none) :
    (d.merge other).2.overlays = d.overlays ++ [d.nextId] ∧
      (d.merge other).2.overlaySources = d.overlaySources ++ [(other.id, d.nextId)] := by
  have hid : d.overlayId other = d.nextId := by rw [overlayId, supersede_of_new hnew]
  refine (merge_induction
    (C := fun d' ↦ d'.overlays = d.overlays ∧ d'.overlaySources = d.overlaySources)
    (M := fun d' ↦ d'.overlays = d.overlays ++ [d.nextId] ∧
      d'.overlaySources = d.overlaySources ++ [(other.id, d.nextId)]) hl other ?_
    (fun _ _ _ _ _ _ h _ _ ↦ h) (fun d' _ _ hC ↦ ?_) (fun _ _ _ _ _ _ h _ _ _ _ _ _ _ ↦ h)
    fun _ _ _ _ _ h _ ↦ h).2
  · rw [supersede_of_new hnew]
    exact ⟨rfl, rfl⟩
  · have ha : Alike d' (d'.recordEdges d.nextId) := .recordEdges _ _
    simp only [hid, announce, ha.overlays, ha.overlaySources, hC.1, hC.2, and_self]

theorem hasStoresAbove_nextId (d : Document) : HasStoresAbove d.nextId d := fun _ _ _ hx hn _ ↦
  absurd (lt_nextId hn) (Nat.not_lt.mpr hx)

theorem withdrawn_release (h : Linked d) (hroot : o ≠ root) (hlive : d.isLive o)
    (htop : ∀ n, d.node? o = some n → n.parent = none) (hlisted : ListedBelow o d) :
    Withdrawn o d (d.release o) := by
  have hmem : ∀ {x}, x ∈ d.ownedSubtree o ↔ Below d o x :=
    hlisted.mem_ownedSubtree_iff h.older hlive
  have hdetached := Detached.tree h hroot htop
  have hl : Linked (d.release o) := h.foldl_evict hdetached.root
  refine ⟨(foldl_evict_fields _ _).1, config_foldl_evict _ _, fun x hx ↦ ?_, fun x hx ↦ ?_,
    fun c hc ↦ ?_, fun c hc ↦ ?_⟩
  · rw [release, node?_foldl_evict, if_neg (mt hmem.mp hx)]
  · rw [release, node?_foldl_evict, if_pos (hmem.mpr hx)]
  · have hstays := mt hmem.mp hc
    have hstore : (d.release o).store? c = (d.store? c).map (·.without (d.ownedSubtree o)) := by
      refine h.store?_evicted hstays fun s hs x hx hxl ↦ ?_
      obtain ⟨n, hn⟩ := isLive_iff.mp ((hmem.mp hxl).isLive hlive)
      exact ⟨n, hn, fun hp ↦ hdetached.cut x hxl n c s hn hp hstays hs hx⟩
    rw [entries, hstore, entries]
    cases d.store? c with
    | none => rfl
    | some s =>
      refine List.filter_congr fun en _ ↦ ?_
      rw [Bool.eq_iff_iff]
      simp [hmem]
  · have hnone : (d.release o).node? c = none := by
      rw [release, node?_foldl_evict, if_pos (hmem.mpr hc)]
    rw [entries, hl.store?_of_node?_eq_none hnone]

/-- What a second merge of a document begins with. -/
theorem withdrawn_supersede (h : Linked d) (hlookup : d.overlaySources.lookup source = some o)
    (hlive : d.isLive o) (htop : ∀ n, d.node? o = some n → n.parent = none)
    (hlisted : ListedBelow o d) : Withdrawn o d (d.supersede source).2 := by
  obtain ⟨l₁, l₂, hsources, -⟩ := List.lookup_eq_some_iff.mp hlookup
  have hroot : o ≠ root := h.sources (source, o) (by simp [hsources])
  let d₀ : Document := { d with
    overlaySources := d.overlaySources.filter (·.1 != source)
    overlays := d.overlays.filter (· != o) }
  have hd₀ : Linked d₀ := h.of_tables rfl rfl fun p hp ↦ h.sources p (List.mem_filter.mp hp).1
  have hnode : ∀ x, d₀.node? x = d.node? x := fun _ ↦ rfl
  have hbelow : ∀ x, Below d₀ o x ↔ Below d o x := fun x ↦
    ⟨fun hb ↦ hb.mono fun y n hn ↦ ⟨n, (hnode y).symm.trans hn, rfl⟩,
      fun hb ↦ hb.mono fun y n hn ↦ ⟨n, (hnode y).trans hn, rfl⟩⟩
  have hlisted₀ : ListedBelow o d₀ := fun x n p hb hn hp ↦ hlisted x n p ((hbelow x).mp hb) hn hp
  have hw : Withdrawn o d₀ (d₀.release o) := withdrawn_release hd₀ hroot hlive htop hlisted₀
  have he : (d.supersede source).2 = d₀.release o := by rw [supersede, hlookup]
  rw [he]
  refine ⟨hw.next, hw.config, fun x hx ↦ hw.node x (mt (hbelow x).mp hx),
    fun x hx ↦ hw.gone x ((hbelow x).mpr hx), fun c hc ↦ ?_,
      fun c hc ↦ hw.empty c ((hbelow c).mpr hc)⟩
  refine (hw.entries c (mt (hbelow c).mp hc)).trans (List.filter_congr fun en _ ↦ ?_)
  rw [hbelow]

namespace Withdrawn

open Classical in
theorem declared (h : Withdrawn o d e) (hc : ¬ Below d o c) (name : String) :
    (e.entries c).filter (e.declares name) =
      ((d.entries c).filter (d.declares name)).filter fun en ↦ ¬ Below d o en.node := by
  rw [h.entries c hc, List.filter_filter, List.filter_filter]
  refine List.filter_congr fun en _ ↦ ?_
  by_cases hb : Below d o en.node
  · simp [hb]
  · have hface : e.face? en.node = d.face? en.node := by rw [face?, h.node _ hb, face?]
    simp [hb, declares_congr hface]

theorem propertyNamed?_of_some (h : Withdrawn o d e) (hc : ¬ Below d o c) {name : String}
    (hx : d.propertyNamed? c name = some x) (hb : ¬ Below d o x) :
    e.propertyNamed? c name = some x := by
  obtain ⟨en, -, -, rfl, hpick⟩ := pick_of_propertyNamed? hx
  rw [propertyNamed?_eq, h.declared hc, Entry.pick_filter hpick (by simpa using hb)]
  rfl

theorem propertyNamed?_of_none (h : Withdrawn o d e) (hc : ¬ Below d o c) {name : String}
    (hx : d.propertyNamed? c name = none) : e.propertyNamed? c name = none := by
  rw [propertyNamed?_eq, Option.map_eq_none_iff, Entry.pick_eq_none_iff] at hx
  rw [propertyNamed?_eq, h.declared hc, hx]
  rfl

theorem isBlockAt (h : Withdrawn o d e) (hx : ¬ Below d o x) : e.isBlockAt x = d.isBlockAt x :=
  isBlockAt_congr (by rw [face?, h.node x hx, face?])

end Withdrawn

theorem supersede_fst (d : Document) (source : DocumentId) :
    (d.supersede source).1 = d.overlaySources.lookup source := by
  cases h : d.overlaySources.lookup source <;> rw [supersede, h]

theorem overlays_supersede (hlookup : d.overlaySources.lookup source = some o) :
    (d.supersede source).2.overlays = d.overlays.filter (· != o) := by
  rw [supersede, hlookup]
  exact (foldl_evict_fields _ _).2.2.1

theorem lookup_supersede (d : Document) (source : DocumentId) :
    (d.supersede source).2.overlaySources.lookup source = none := by
  cases h : d.overlaySources.lookup source with
  | none => rw [supersede_of_new h, h]
  | some o =>
    rw [supersede, h]
    refine (congrArg (List.lookup source) (foldl_evict_fields _ _).2.2.2).trans ?_
    refine List.lookup_eq_none_iff.mpr fun q hq ↦ ?_
    have hne := (List.mem_filter.mp hq).2
    rw [bne_iff_ne] at hne ⊢
    exact hne.symm

/-- A merge is a first merge once the earlier overlay is put away. -/
theorem merge_supersede (d other : Document) :
    d.merge other = ({ ((d.supersede other.id).2.merge other).1 with
      superseded := (d.supersede other.id).1 }, ((d.supersede other.id).2.merge other).2) := by
  have hnone := supersede_of_new (lookup_supersede d other.id)
  rw [merge, merge, hnone]

end BuildScript.Document
