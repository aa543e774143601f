import BuildScript.Proofs.Document.Release

namespace BuildScript

/-- A node older than its children, held by distinct blocks other than its parent, and with a
pending value only where there is a value to replace. -/
structure Node.Fits (x : NodeId) (n : Node) : Prop where
  older : ∀ p, n.parent = some p → p < x
  distinct : n.holders.Nodup
  foreign : ∀ p, n.parent = some p → p ∉ n.holders
  settable : n.pending.isSome → n.isSettable

theorem Node.Fits.of_bare {x : NodeId} {n n₀ : Node} (h : n₀.Fits x) (he : n.bare = n₀.bare) :
    n.Fits x := by
  obtain ⟨name, kind, parent, source, modified, holders, edges, pending⟩ := n
  obtain ⟨name₀, kind₀, parent₀, source₀, modified₀, holders₀, edges₀, pending₀⟩ := n₀
  simp only [Node.bare, Node.mk.injEq] at he
  obtain ⟨rfl, rfl, rfl, -, -, rfl, -, rfl, -⟩ := he
  exact ⟨h.older, h.distinct, h.foreign, h.settable⟩

namespace Document

variable {d d' : Document} {b i x y : NodeId} {n : Node} {s : Store}

/-- `x` has been numbered, and as long as it lives `b` is its parent or one of its holders. -/
def Links (d : Document) (b x : NodeId) : Prop :=
  x < d.nextId ∧ ∀ n, d.node? x = some n → n.parent = some b ∨ b ∈ n.holders

/-- No node twice in a store, only nodes that belong there, and no removal of a removal. -/
structure StoreFits (d : Document) (b : NodeId) (s : Store) : Prop where
  nodup : s.nodes.Nodup
  links : ∀ x ∈ s.nodes, d.Links b x
  restored : ∀ e ∈ s.entries, e.restore ≠ some .toBeRemoved

/-- What holds of every document, whatever has been done to it. -/
structure Linked (d : Document) : Prop where
  sizes : d.stores.size = d.nodes.size
  keyed : ∀ i, (d.store? i).isSome = (d.node? i).any Node.isContainer
  node : ∀ x n, d.node? x = some n → n.Fits x
  store : ∀ b s, d.store? b = some s → d.StoreFits b s
  root : ∃ n, d.node? root = some n ∧ n.isContainer ∧ n.parent = none ∧ n.holders = []
  sources : ∀ p ∈ d.overlaySources, p.2 ≠ Document.root

theorem Links.mono (hnext : d.nextId ≤ d'.nextId)
    (hnode : ∀ n', d'.node? x = some n' → x < d.nextId →
      ∃ n, d.node? x = some n ∧ n'.parent = n.parent ∧ n.holders ⊆ n'.holders)
    (h : d.Links b x) : d'.Links b x := by
  refine ⟨Nat.lt_of_lt_of_le h.1 hnext, fun n' hn' ↦ ?_⟩
  obtain ⟨n, hn, hp, hh⟩ := hnode n' hn' h.1
  rw [hp]
  exact (h.2 n hn).imp_right (hh ·)

theorem StoreFits.mono (hlinks : ∀ x, d.Links b x → d'.Links b x) (h : d.StoreFits b s) :
    d'.StoreFits b s :=
  ⟨h.nodup, fun x hx ↦ hlinks x (h.links x hx), h.restored⟩

theorem StoreFits.of_subset {s' : Store} (h : d.StoreFits b s) (hn : s'.nodes.Nodup)
    (hs : ∀ x ∈ s'.nodes, x ∈ s.nodes) (hr : ∀ e ∈ s'.entries, e.restore ≠ some .toBeRemoved) :
    d.StoreFits b s' :=
  ⟨hn, fun x hx ↦ h.links x (hs x hx), hr⟩

theorem StoreFits.of_sublist {s' : Store} (h : d.StoreFits b s)
    (hs : s'.entries.Sublist s.entries) : d.StoreFits b s' :=
  h.of_subset (h.nodup.sublist (hs.map _)) (fun _ hx ↦ (hs.map Entry.node).subset hx)
    fun e he ↦ h.restored e (hs.subset he)

theorem storeFits_empty (d : Document) (b : NodeId) : d.StoreFits b {} :=
  ⟨by simp [Store.nodes], by simp [Store.nodes], by simp⟩

namespace Linked

theorem older (h : Linked d) : d.Older := fun x n p hn hp ↦ (h.node x n hn).older p hp

theorem distinct (h : Linked d) (x : NodeId) (n : Node) (hn : d.node? x = some n) :
    n.holders.Nodup := (h.node x n hn).distinct

theorem isContainer_of_store? (h : Linked d) (hs : d.store? i = some s) :
    ∃ n, d.node? i = some n ∧ n.isContainer := by
  have hk := h.keyed i
  rw [hs, Option.isSome_some] at hk
  exact (Option.any_eq_true _ _).mp hk.symm

theorem store?_of_node?_eq_none (h : Linked d) (hn : d.node? i = none) : d.store? i = none := by
  have hk := h.keyed i
  rw [hn, Option.any_none] at hk
  simpa using hk

theorem alike (h : Linked d) (ha : Alike d d') : Linked d' := by
  have hlinks : ∀ b x, d.Links b x → d'.Links b x := by
    intro b x
    refine Links.mono (Nat.le_of_eq ha.nextId.symm) fun n' hn' _ ↦ ?_
    obtain ⟨n, hn, he⟩ := ha.node? hn'
    have hp : n'.bare.parent = n.bare.parent := by rw [he]
    have hh : n.bare.holders = n'.bare.holders := by rw [he]
    exact ⟨n, hn, hp, fun _ hx ↦ hh ▸ hx⟩
  refine ⟨?_, fun i ↦ ?_, fun x n hn ↦ ?_, fun b s hs ↦ ?_, ?_, ?_⟩
  · rw [ha.storesSize, ha.size, h.sizes]
  · rw [ha.store?, h.keyed]
    have hc : ∀ n : Node, n.isContainer = n.bare.isContainer := fun _ ↦ rfl
    have hb := congrArg (Option.any Node.isContainer) (ha.bare i)
    simpa only [Option.any_map, Function.comp_def, ← hc] using hb.symm
  · obtain ⟨n₀, hn₀, he⟩ := ha.node? hn
    exact (h.node x n₀ hn₀).of_bare he
  · rw [ha.store?] at hs
    exact (h.store b s hs).mono (hlinks b)
  · obtain ⟨n, hn, hc, hp, hh⟩ := h.root
    obtain ⟨n', hn', he⟩ := ha.symm.node? hn
    refine ⟨n', hn', ?_, ?_, ?_⟩
    · exact (congrArg Node.isContainer he).symm.trans hc
    · exact (congrArg Node.parent he).symm.trans hp
    · exact (congrArg Node.holders he).symm.trans hh
  · rw [ha.overlaySources]
    exact h.sources

theorem modifyStore (h : Linked d) {f : Store → Store}
    (hf : ∀ s, d.store? b = some s → d.StoreFits b (f s)) : Linked (d.modifyStore b f) := by
  have hlinks : ∀ c x, d.Links c x → (d.modifyStore b f).Links c x := fun _ _ hx ↦ hx
  refine ⟨?_, fun i ↦ ?_, h.node, fun b' s hs ↦ ?_, h.root, h.sources⟩
  · exact (d.stores.size_modify b f).trans h.sizes
  · rw [store?_modifyStore, node?_modifyStore, ← h.keyed]
    split <;> simp
  · rcases store?_of_modifyStore hs with ⟨rfl, s₀, hs₀, rfl⟩ | ⟨-, hs⟩
    · exact (hf s₀ hs₀).mono (hlinks b)
    · exact (h.store b' s hs).mono (hlinks b')

theorem modifyNode (h : Linked d) {f : Node → Node}
    (hf : ∀ n, d.node? i = some n → (f n).parent = n.parent ∧ (f n).holders = n.holders ∧
      (f n).isContainer = n.isContainer ∧ ((f n).pending.isSome → (f n).isSettable)) :
    Linked (d.modifyNode i f) := by
  have hnode : ∀ x n', (d.modifyNode i f).node? x = some n' → ∃ n, d.node? x = some n ∧
      n'.parent = n.parent ∧ n'.holders = n.holders ∧ n'.isContainer = n.isContainer ∧
      (n'.pending.isSome → n'.isSettable) := by
    intro x n' hn'
    rcases node?_of_modifyNode hn' with ⟨rfl, n, hn, rfl⟩ | ⟨-, hn'⟩
    · exact ⟨n, hn, hf n hn⟩
    · exact ⟨n', hn', rfl, rfl, rfl, (h.node x n' hn').settable⟩
  refine ⟨?_, fun j ↦ ?_, fun x n' hn' ↦ ?_, fun b s hs ↦ ?_, ?_, h.sources⟩
  · exact h.sizes.trans (d.nodes.size_modify i f).symm
  · rw [store?_modifyNode, h.keyed, node?_modifyNode]
    split
    · next hj =>
      subst hj
      cases hn : d.node? i with
      | none => rfl
      | some n => simpa using (hf n hn).2.2.1.symm
    · rfl
  · obtain ⟨n, hn, hp, hh, -, hset⟩ := hnode x n' hn'
    have hfit := h.node x n hn
    exact ⟨hp ▸ hfit.older, hh ▸ hfit.distinct, hp ▸ hh ▸ hfit.foreign, hset⟩
  · have hnext := Nat.le_of_eq (nextId_modifyNode d i f).symm
    refine (h.store b s hs).mono fun x ↦ Links.mono hnext fun n' hn' _ ↦ ?_
    obtain ⟨n, hn, hp, hh, -, -⟩ := hnode x n' hn'
    exact ⟨n, hn, hp, fun _ hx ↦ hh ▸ hx⟩
  · obtain ⟨n, hn, hc, hp, hh⟩ := h.root
    rw [node?_modifyNode]
    split
    · next hr =>
      subst hr
      obtain ⟨hp', hh', hc', -⟩ := hf n hn
      exact ⟨f n, by simp [hn], hc'.trans hc, hp'.trans hp, hh'.trans hh⟩
    · exact ⟨n, hn, hc, hp, hh⟩

theorem push (h : Linked d) (hp : ∀ p, n.parent = some p → p < d.nextId) (hh : n.holders = [])
    (hpending : n.pending = none) : Linked (d.push n) := by
  have hroot : Document.root < d.nextId := by
    obtain ⟨n, hn, -⟩ := h.root
    exact lt_nextId hn
  refine ⟨?_, fun i ↦ ?_, fun x n' hn' ↦ ?_, fun b s hs ↦ ?_, ?_, h.sources⟩
  · simp [Document.push, h.sizes]
  · rw [store?_push h.sizes, node?_push]
    split
    · cases hc : n.isContainer <;> simp [hc]
    · exact h.keyed i
  · rcases node?_of_push hn' with ⟨rfl, rfl⟩ | hn'
    · exact ⟨hp, by simp [hh], by simp [hh], by simp [hpending]⟩
    · exact h.node x n' hn'
  · rcases store?_of_push h.sizes hs with ⟨-, rfl⟩ | hs
    · exact storeFits_empty _ b
    · refine (h.store b s hs).mono fun x ↦ Links.mono ?_ fun n' hn' hx ↦ ?_
      · rw [nextId_push]; exact Nat.le_succ _
      · rw [node?_push, if_neg (Nat.ne_of_lt hx)] at hn'
        exact ⟨n', hn', rfl, fun _ h ↦ h⟩
  · obtain ⟨m, hm, hrest⟩ := h.root
    refine ⟨m, ?_, hrest⟩
    rw [node?_push, if_neg (Nat.ne_of_lt hroot)]
    exact hm

theorem evict (h : Linked d) (hr : i ≠ Document.root) : Linked (d.evict i) := by
  cases hn : d.node? i with
  | none => rwa [evict_of_none hn]
  | some n =>
    obtain ⟨hnext, hsize, -, hsources⟩ := d.evict_fields i
    have hfit := h.node i n hn
    refine ⟨?_, fun j ↦ ?_, fun x n' hn' ↦ h.node x n' (node?_of_evict hn'), fun b s hs ↦ ?_, ?_,
      ?_⟩
    · exact hsize.trans (h.sizes.trans hnext.symm)
    · rw [node?_evict]
      split
      · next hj => rw [hj, store?_evict_self hn]; rfl
      · next hj =>
        rw [store?_evict_of_ne hn hfit.distinct hj, ← h.keyed]
        split <;> simp
    · have hlinks : ∀ x, d.Links b x → (d.evict i).Links b x := fun x ↦
        Links.mono (Nat.le_of_eq hnext.symm) fun n' hn' _ ↦
          ⟨n', node?_of_evict hn', rfl, fun _ h ↦ h⟩
      by_cases hb : b = i
      · rw [hb, store?_evict_self hn] at hs
        simp at hs
      · rw [store?_evict_of_ne hn hfit.distinct hb] at hs
        split at hs
        · obtain ⟨s₀, hs₀, rfl⟩ := Option.map_eq_some_iff.mp hs
          exact ((h.store b s₀ hs₀).of_sublist List.eraseP_sublist).mono hlinks
        · exact (h.store b s hs).mono hlinks
    · obtain ⟨m, hm, hrest⟩ := h.root
      exact ⟨m, by rw [node?_evict, if_neg hr.symm]; exact hm, hrest⟩
    · rw [hsources]
      exact h.sources

theorem foldl_evict {l : List NodeId} (h : Linked d) (hr : Document.root ∉ l) :
    Linked (l.foldl Document.evict d) := by
  refine List.foldlRecOn (motive := Linked) l _ h fun d hd i hi ↦ hd.evict ?_
  rintro rfl
  exact hr hi

theorem not_mem_of_store? {l : List NodeId} (h : Linked (l.foldl Document.evict d))
    (hs : (l.foldl Document.evict d).store? i = some s) : i ∉ l := by
  obtain ⟨n, hn, -⟩ := h.isContainer_of_store? hs
  exact (node?_of_foldl_evict hn).1

/-- A block that stays loses its entries for what goes, if that has been there and is not its
own. -/
theorem store?_evicted {l : List NodeId} (h : Linked d) (hi : i ∉ l)
    (hs : ∀ s, d.store? i = some s → ∀ x ∈ s.nodes, x ∈ l →
      ∃ n, d.node? x = some n ∧ n.parent ≠ some i) :
    (l.foldl Document.evict d).store? i = (d.store? i).map (·.without l) := by
  refine store?_foldl_evict hi h.distinct fun s hds ↦ ⟨(h.store i s hds).nodup, fun e he hel ↦ ?_⟩
  have hmem := Store.mem_nodes_of_mem he
  obtain ⟨n, hn, hp⟩ := hs s hds e.node hmem hel
  exact ⟨n, hn, (((h.store i s hds).links _ hmem).2 n hn).resolve_left hp⟩

theorem root_not_mem_ownedSubtree (h : Linked d) (hr : i ≠ Document.root) :
    Document.root ∉ d.ownedSubtree i := by
  intro hmem
  obtain ⟨n, hn, -, hp, -⟩ := h.root
  refine hr ((ownedSubtree_below hmem).eq_of_top fun m hm ↦ ?_).symm
  rw [hn] at hm
  cases hm
  exact hp

theorem release (h : Linked d) (hr : i ≠ Document.root) : Linked (d.release i) :=
  h.foldl_evict (h.root_not_mem_ownedSubtree hr)

theorem ne_root_of_parent (h : Linked d) (hn : d.node? i = some n) {p : NodeId}
    (hp : n.parent = some p) : i ≠ Document.root := by
  rintro rfl
  obtain ⟨m, hm, -, hpm, -⟩ := h.root
  rw [hn] at hm
  cases hm
  simp [hp] at hpm

theorem ne_root_of_mem (h : Linked d) (hs : d.store? b = some s) (hx : x ∈ s.nodes) :
    x ≠ Document.root := by
  rintro rfl
  obtain ⟨m, hm, -, hpm, hhm⟩ := h.root
  rcases ((h.store b s hs).links _ hx).2 m hm with hp | hh
  · simp [hp] at hpm
  · simp [hhm] at hh

theorem mem_holders (h : Linked d) {e : Entry} (hs : d.store? b = some s) (he : e ∈ s.entries)
    (hn : d.node? e.node = some n) (hp : n.parent ≠ some b) : b ∈ n.holders :=
  (((h.store b s hs).links _ (Store.mem_nodes_of_mem he)).2 n hn).resolve_left hp

end Linked

end Document

end BuildScript
