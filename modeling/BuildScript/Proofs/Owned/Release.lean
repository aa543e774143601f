import BuildScript.Proofs.Owned.Basic

namespace BuildScript.Document

variable {full : Prop} {ov ov' : List NodeId} {U : NodeId → Prop} {d d' : Document}
  {b i o p x y id : NodeId} {n : Node} {s : Store} {l : List NodeId}

theorem below_foldl_evict (h : Below (l.foldl evict d) o x) : Below d o x := by
  exact h.mono fun y m hm ↦ ⟨m, (node?_of_foldl_evict hm).2, rfl⟩

/-- The nodes of `l` can go together: with a container go the nodes that it owns and lists, every
unlisted node goes, and no parent that stays lists one that goes. -/
structure Detached (U : NodeId → Prop) (d : Document) (l : List NodeId) : Prop where
  root : root ∉ l
  unlisted : ∀ x n, d.node? x = some n → U x → x ∈ l
  closed : ∀ p ∈ l, ∀ x ∈ d.ownedChildren p, x ∈ l
  cut : ∀ x ∈ l, ∀ n p s, d.node? x = some n → n.parent = some p → p ∉ l → d.store? p = some s →
    x ∉ s.nodes

/-- What a node owns can go with it once its parent does not list it. -/
theorem Detached.purge (h : Linked d) (hn : d.node? id = some n) (hp : n.parent = some b) :
    Detached (· = id) (d.purge b id) ((d.purge b id).ownedSubtree id) := by
  have hl : Linked (d.purge b id) := h.purge b id
  have hnid : (d.purge b id).node? id = some n := hn
  refine ⟨hl.root_not_mem_ownedSubtree (h.ne_root_of_parent hn hp), fun x m hm hx ↦ ?_,
    fun p hpl x hx ↦ ownedSubtree_child hl.older hpl hx, fun x hx m p s hm hpar hpl hs hmem ↦ ?_⟩
  · subst hx
    exact self_mem_ownedSubtree (isLive_iff.mpr ⟨m, hm⟩)
  · by_cases hxid : x = id
    · subst hxid
      rw [hnid] at hm
      cases hm
      rw [hp] at hpar
      cases hpar
      rw [Document.purge, store?_modifyStore, if_pos rfl] at hs
      obtain ⟨s₀, hs₀, rfl⟩ := Option.map_eq_some_iff.mp hs
      exact Store.not_mem_nodes_purge (h.store b s₀ hs₀).nodup hmem
    · exact hpl (ownedSubtree_parent hx hxid hm hpar)

/-- A tree can go as a whole. -/
theorem Detached.tree (h : Linked d) (hroot : o ≠ Document.root)
    (htop : ∀ n, d.node? o = some n → n.parent = none) :
    Detached (fun _ ↦ False) d (d.ownedSubtree o) := by
  refine ⟨h.root_not_mem_ownedSubtree hroot, fun _ _ _ hf ↦ hf.elim,
    fun p hpl x hx ↦ ownedSubtree_child h.older hpl hx,
    fun x hx n p s hn hpar hpl _ _ ↦ hpl (ownedSubtree_parent hx ?_ hn hpar)⟩
  rintro rfl
  simp [htop n hn] at hpar

namespace Owned

theorem mem_of_parent_mem (h : Owned full ov U d) (hd : Detached U d l) (hn : d.node? x = some n)
    (hp : n.parent = some p) (hr : NeedsContainer full ov d p) (hpl : p ∈ l) : x ∈ l := by
  obtain ⟨s, hs⟩ := Option.isSome_iff_exists.mp (h.listsOwned x n p hn hp hr)
  rcases h.listed x n p s hn hp hs with hU | hmem
  · exact hd.unlisted x n hn hU
  · exact hd.closed p hpl x (mem_ownedChildren.mpr ⟨⟨s, hs, hmem⟩, n, hn, hp⟩)

theorem below_evicted (h : Owned full ov U d) (hd : Detached U d l) (ho : o ∈ ov)
    (hb : Below d o x) (hx : x ∉ l) : o ∉ l ∧ Below (l.foldl evict d) o x := by
  induction hb with
  | refl => exact ⟨hx, .refl⟩
  | @step p x n hb hn hp ih =>
    have hpl : p ∉ l := fun hpl ↦
      hx (h.mem_of_parent_mem hd hn hp (.inr ⟨o, ho, hb⟩) hpl)
    obtain ⟨hol, hb'⟩ := ih hpl
    exact ⟨hol, .step hb' (by rw [node?_foldl_evict, if_neg hx, hn]) hp⟩

theorem store?_evicted (h : Owned full ov U d) (hd : Detached U d l) (hy : y ∉ l) :
    (l.foldl evict d).store? y = (d.store? y).map (·.without l) := by
  refine h.linked.store?_evicted hy fun s hs x hx hxl ↦ ?_
  obtain ⟨e, he, rfl⟩ := List.mem_map.mp hx
  obtain ⟨n, hn, -⟩ := (h.entry y s e hs he).owner
  exact ⟨n, hn, fun hp ↦ hd.cut e.node hxl n y s hn hp hy hs hx⟩

theorem foldl_evict (h : Owned full ov U d) (hd : Detached U d l)
    (hov : ∀ o, o ∈ ov' ↔ o ∈ ov ∧ o ∉ l) : Owned full ov' (fun _ ↦ False) (l.foldl evict d) := by
  have hl := h.linked.foldl_evict hd.root
  have hstore : ∀ y s', (l.foldl evict d).store? y = some s' →
      y ∉ l ∧ ∃ s, d.store? y = some s ∧ s' = s.without l := by
    intro y s' hs'
    have hy := hl.not_mem_of_store? hs'
    rw [h.store?_evicted hd hy] at hs'
    obtain ⟨s, hs, rfl⟩ := Option.map_eq_some_iff.mp hs'
    exact ⟨hy, s, hs, rfl⟩
  refine ⟨hl, fun b s' e hs' he ↦ ?_, fun o ho ↦ ?_, fun x n hn hp ↦ ?_, fun x n hn hh ↦ ?_,
    fun x n p s' hn hp hs' ↦ ?_, fun x n p hn hp hr ↦ ?_, fun q hq ↦ ?_⟩
  · obtain ⟨hb, s, hs, rfl⟩ := hstore b s' hs'
    obtain ⟨he, hel⟩ := Store.mem_without.mp he
    have hfits := h.entry b s e hs he
    refine ⟨?_, hfits.restore, hfits.staged, fun hst o ho hbel ↦ ?_⟩
    · obtain ⟨n, hn, hiff⟩ := hfits.owner
      exact ⟨n, by rw [node?_foldl_evict, if_neg hel, hn], hiff⟩
    · exact hfits.calm hst o ((hov o).mp ho).1 (below_foldl_evict hbel)
  · obtain ⟨ho, hol⟩ := (hov o).mp ho
    obtain ⟨hroot, n, hn, hrest⟩ := h.overlay o ho
    exact ⟨hroot, n, by rw [node?_foldl_evict, if_neg hol, hn], hrest⟩
  · obtain ⟨hx, hn⟩ := node?_of_foldl_evict hn
    exact (h.top x n hn hp).imp_right fun ho ↦ (hov x).mpr ⟨ho, hx⟩
  · obtain ⟨hx, hn⟩ := node?_of_foldl_evict hn
    obtain ⟨o, ho, hb⟩ := h.held x n hn hh
    obtain ⟨hol, hb'⟩ := h.below_evicted hd ho hb hx
    exact ⟨o, (hov o).mpr ⟨ho, hol⟩, hb'⟩
  · obtain ⟨hx, hn⟩ := node?_of_foldl_evict hn
    obtain ⟨-, s, hs, rfl⟩ := hstore p s' hs'
    rcases h.listed x n p s hn hp hs with hU | hmem
    · exact absurd (hd.unlisted x n hn hU) hx
    · obtain ⟨e, he, rfl⟩ := List.mem_map.mp hmem
      exact .inr (Store.mem_nodes_of_mem (Store.mem_without.mpr ⟨he, hx⟩))
  · obtain ⟨hx, hn⟩ := node?_of_foldl_evict hn
    have hroof : NeedsContainer full ov d p := hr.imp_right fun ⟨o, ho, hb⟩ ↦
      ⟨o, ((hov o).mp ho).1, below_foldl_evict hb⟩
    have hpl : p ∉ l := fun hpl ↦ hx (h.mem_of_parent_mem hd hn hp hroof hpl)
    rw [h.store?_evicted hd hpl, Option.isSome_map]
    exact h.listsOwned x n p hn hp hroof
  · obtain ⟨hnext, -, -, hsrc⟩ := foldl_evict_fields l d
    rw [hsrc] at hq
    rw [hnext, node?_foldl_evict]
    rcases h.sources q hq with ho | ⟨hlt, hdead⟩
    · by_cases hql : q.2 ∈ l
      · obtain ⟨-, n, hn, -⟩ := h.overlay q.2 ho
        exact .inr ⟨lt_nextId hn, by simp [hql]⟩
      · exact .inl ((hov q.2).mpr ⟨ho, hql⟩)
    · exact .inr ⟨hlt, by simp [hdead]⟩

theorem overlay_below (h : Owned full ov U d) (ho : o ∈ ov) (hb : Below d x o) : o = x := by
  obtain ⟨-, n, hn, hp, -⟩ := h.overlay o ho
  refine hb.eq_of_top fun m hm ↦ ?_
  rw [hn] at hm
  cases hm
  exact hp

theorem holders_eq_nil (h : Owned full ov U d) (hn : d.node? x = some n)
    (hx : ∀ o ∈ ov, ¬ Below d o x) : n.holders = [] := by
  by_contra hne
  obtain ⟨o, ho, hb⟩ := h.held x n hn hne
  exact hx o ho hb

theorem not_below_of_parent (h : Owned full ov U d) (hn : d.node? x = some n)
    (hp : n.parent = some b) (hb : ∀ o ∈ ov, ¬ Below d o b) : ∀ o ∈ ov, ¬ Below d o x := by
  intro o ho hx
  rcases hx.eq_or_parent hn hp with rfl | hx
  · exact h.not_mem_of_parent hn hp ho
  · exact hb o ho hx

theorem not_below_of_main (h : Owned full ov U d) (hb : Below d root b) :
    ∀ o ∈ ov, ¬ Below d o b := by
  intro o ho hob
  obtain ⟨hroot, -⟩ := h.overlay o ho
  rcases hb.total hob with hb | hb
  · exact hroot (h.overlay_below ho hb)
  · exact h.linked.not_below_root hroot hb

theorem purged (h : Owned full ov (fun _ ↦ False) d) (b id : NodeId) :
    Owned full ov (· = id) (d.purge b id) := by
  refine h.modifyStore (h.linked.purge b id) (fun s hs ↦ ⟨fun e he ↦ ?_, fun x m hm hpar hx ↦ ?_⟩)
    fun _ _ _ _ hf ↦ hf.elim
  · exact h.entry b s e hs (List.eraseP_sublist.subset he)
  · obtain ⟨e, he, rfl⟩ := List.mem_map.mp (hx.resolve_left not_false)
    by_cases hid : e.node = id
    · exact .inl hid
    · refine .inr (Store.mem_nodes_of_mem ?_)
      exact (List.mem_eraseP_of_neg (by simpa using hid)).mpr he

theorem drop (h : Owned full ov (fun _ ↦ False) d) (hn : d.node? id = some n)
    (hp : n.parent = some b) : Owned full ov (fun _ ↦ False) ((d.purge b id).release id) := by
  have hpurged := h.purged b id
  refine hpurged.foldl_evict (.purge h.linked hn hp) fun o ↦
    ⟨fun ho ↦ ⟨ho, fun hol ↦ ?_⟩, fun ho ↦ ho.1⟩
  have he := hpurged.overlay_below ho (ownedSubtree_below hol)
  subst he
  exact h.not_mem_of_parent hn hp ho

theorem purge (h : Owned full ov U d) (hid : ∀ n, d.node? id = some n → n.parent ≠ some b) :
    Owned full ov U (d.purge b id) := by
  refine h.modifyStore (h.linked.purge b id) (fun s hs ↦ ⟨fun e he ↦ ?_, fun x m hm hpar hx ↦ ?_⟩)
    fun _ _ _ _ hU ↦ hU
  · exact h.entry b s e hs (List.eraseP_sublist.subset he)
  · refine hx.imp_right fun hmem ↦ ?_
    obtain ⟨e, he, rfl⟩ := List.mem_map.mp hmem
    have hne : e.node ≠ id := by
      rintro rfl
      exact hid m hm hpar
    exact Store.mem_nodes_of_mem ((List.mem_eraseP_of_neg (by simpa using hne)).mpr he)

end Owned

end BuildScript.Document
