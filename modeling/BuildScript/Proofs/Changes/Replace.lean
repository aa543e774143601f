import BuildScript.Proofs.Changes.Graft

namespace BuildScript

namespace Document

variable {d d' : Document} {a b block old new x y : NodeId} {l l' : List NodeId} {n : Node}
  {s : Store} {e : Entry}

theorem flags_replaceIn {blocks : List NodeId} (hb : blocks.Nodup) (ho : d.Older)
    (hf : Flags l d d') (old new : NodeId) : ∃ l', Flags l' (d.replaceIn old new blocks)
      (blocks.foldl (fun d holder ↦
        if (d.store? holder).any (·.contains old) then
          (d.modifyStore holder (·.replace old new)).markModified holder
        else d) d') ∧
      (∀ b ∈ l, b ∈ l') ∧ ∀ b ∈ blocks, ∀ s, d.store? b = some s → old ∈ s.nodes → b ∈ l' := by
  induction blocks generalizing d d' l with
  | nil => exact ⟨l, hf, fun _ h ↦ h, by simp⟩
  | cons b blocks ih =>
    obtain ⟨hnot, hrest⟩ := List.nodup_cons.mp hb
    have hfb := hf.modifyStore b (·.replace old new)
    have hother : ∀ c ∈ blocks, (d.modifyStore b (·.replace old new)).store? c = d.store? c := by
      intro c hc
      have hne : b ≠ c := fun he ↦ hnot (he ▸ hc)
      rw [store?_modifyStore, if_neg hne]
    have ho' : (d'.modifyStore b (·.replace old new)).Older := by
      intro y m p hm hp
      obtain ⟨m₀, hm₀, he⟩ := hf.node? hm
      exact ho y m₀ p hm₀ ((Node.fields_of_bare he).1.symm.trans hp)
    rw [replaceIn, List.foldl_cons, List.foldl_cons]
    split
    · obtain ⟨l', hl', hsub, hmem⟩ := ih hrest (d := d.modifyStore b (·.replace old new)) ho
        (hfb.trans (.markModified ho' b))
      refine ⟨l', hl', fun c hc ↦ hsub c (List.mem_append_left _ hc), fun c hc s hs hold ↦ ?_⟩
      rcases List.mem_cons.mp hc with rfl | hc
      · exact hsub c (List.mem_append_right _ List.mem_cons_self)
      · exact hmem c hc s ((hother c hc).trans hs) hold
    · next hc =>
      have hold : ∀ s, d'.store? b = some s → old ∉ s.nodes := by
        intro s hs hmem
        simp [hs, Store.contains_iff.mpr hmem] at hc
      have hsame : Flags [] (d'.modifyStore b (·.replace old new)) d' :=
        .of_modified (alike_modifyStore hold).symm fun y m m' hm hm' ↦ by
          rw [node?_modifyStore, hm'] at hm
          cases hm
          rfl
      obtain ⟨l', hl', hsub, hmem⟩ := ih hrest (d := d.modifyStore b (·.replace old new)) ho
        (hfb.trans hsame)
      refine ⟨l', hl', fun c hc ↦ hsub c (List.mem_append_left _ hc), fun c hc s hs holds ↦ ?_⟩
      rcases List.mem_cons.mp hc with rfl | hc
      · exact absurd holds (hold s ((hf.store? c).trans hs))
      · exact hmem c hc s ((hother c hc).trans hs) holds

theorem flags_stageReplacement (h : Linked d) (hs : d.store? block = some s)
    (hn : d.node? old = some n) (hp : n.parent = some block) (spec : Spec) :
    ∃ l, Flags l (d.replaced block old n spec) (d.stageReplacement block old spec) ∧
      block ∈ l ∧ ∀ b ∈ n.holders, b < d.nextId → ∀ s, d.store? b = some s → old ∈ s.nodes →
        b ∈ l := by
  have hlt := h.lt_of_store? hs
  obtain ⟨hl, hext, -⟩ := h.alloc hlt .toBeAdded spec
  have hold : (d.alloc block .toBeAdded spec).node? old = some n :=
    (hext.node old (lt_nextId hn)).trans hn
  obtain ⟨hnot, hnodup⟩ := List.nodup_cons.mp (h.holders_nodup hn hp)
  obtain ⟨l, hf, -, hmem⟩ := flags_replaceIn
    (d := (d.alloc block .toBeAdded spec).modifyStore block (·.replace old d.nextId)) hnodup
    (fun y m p hm hp ↦ hl.older y m p hm hp) (.refl _) old d.nextId
  have hf' := hf.congr_modifyNode d.nextId (f := fun m ↦ { m with holders := n.holders })
    (fun m m' he ↦ by
      obtain ⟨name, kind, parent, source, modified, holders, edges, pending⟩ := m
      obtain ⟨name', kind', parent', source', modified', holders', edges', pending'⟩ := m'
      simp_all [Node.bare]) (fun _ ↦ rfl) fun _ ↦ rfl
  have hdrop := (hf'.trans (.dropEdges _ old)).trans (.recordEdges _ d.nextId)
  rw [replaceIn_modifyNode] at hdrop
  have hl' := (h.replaced hs hn hp spec).alike hdrop.toAlike
  refine ⟨_, ?_, List.mem_append_right (l ++ [] ++ []) (List.mem_cons_self (l := [])),
    fun b hb hbn s hs hmem' ↦ ?_⟩
  · simp only [stageReplacement, putInPlace, node?_modifyStore, hold, Option.map_some,
    Option.getD_some]
    exact hdrop.trans (.markModified hl'.older block)
  · have hne : block ≠ b := fun he ↦ hnot (he ▸ hb)
    simp only [List.append_nil, List.mem_append]
    refine .inl (hmem b hb s ?_ hmem')
    rw [store?_modifyStore, if_neg hne, hext.store b hbn (Nat.ne_of_lt hbn), hs]

theorem nextId_replaceIn (d : Document) (old new : NodeId) (blocks : List NodeId) :
    (d.replaceIn old new blocks).nextId = d.nextId := by
  simp only [nextId, replaceIn, (foldl_modifyStore_fields blocks (·.replace old new) d).1]

theorem node?_replaced {spec : Spec} {m : Node}
    (hm : (d.replaced block old n spec).node? y = some m) :
    ∃ m₀, (d.alloc block .toBeAdded spec).node? y = some m₀ ∧ m.parent = m₀.parent ∧
      m.modified = m₀.modified ∧ m.pending = m₀.pending ∧
      (m.holders = m₀.holders ∨ y = d.nextId ∧ m.holders = n.holders) := by
  rw [replaced, node?_replaceIn, withSuccessor, node?_modifyNode] at hm
  split at hm
  · next hy =>
    obtain ⟨m₀, hm₀, rfl⟩ := Option.map_eq_some_iff.mp hm
    exact ⟨m₀, hm₀, rfl, rfl, rfl, .inr ⟨hy.symm, rfl⟩⟩
  · exact ⟨m, hm, rfl, rfl, rfl, .inl rfl⟩

/-- The entries after a replacement: the old ones, those of the new tree, and two in each block
that has an entry for the old node. -/
theorem mem_replaced (h : Linked d) (hs : d.store? block = some s) (hn : d.node? old = some n)
    (hp : n.parent = some block) {spec : Spec} {s' : Store}
    (hb : (d.replaced block old n spec).store? b = some s') (he : e ∈ s'.entries) :
    (∃ s, d.store? b = some s ∧ e ∈ s.entries) ∨
    (d.nextId ≤ b ∧ ∃ x existsInSource, e = .fresh x .toBeAdded existsInSource ∧ d.nextId ≤ x ∧
      (d.alloc block .toBeAdded spec).isOwnedBy x b) ∨
    (b ∈ block :: n.holders ∧ b < d.nextId ∧ ∃ s e₀, d.store? b = some s ∧ e₀ ∈ s.entries ∧
      e₀.node = old ∧ (e = e₀.withdraw ∨ e = Store.replacement d.nextId e₀)) := by
  have hlt := h.lt_of_store? hs
  obtain ⟨-, hext, -⟩ := h.alloc hlt .toBeAdded spec
  have hnum := (Numbered.start h block .toBeAdded).alloc h hlt (Nat.le_refl _) (.inr rfl) spec
  rw [replaced, store?_replaceIn (h.holders_nodup hn hp), withSuccessor, store?_modifyNode] at hb
  by_cases hbn : d.nextId ≤ b
  · -- no entry of the new tree is for the old node
    refine .inr (.inl ⟨hbn, ?_⟩)
    split at hb
    · obtain ⟨s₀, hs₀, rfl⟩ := Option.map_eq_some_iff.mp hb
      rcases Store.mem_replaceFirst he with he | ⟨e₀, he₀, hold, -⟩
      · exact hnum.entry b s₀ e hbn hs₀ he
      · obtain ⟨x, ex, rfl, hx, -⟩ := hnum.entry b s₀ e₀ hbn hs₀ he₀
        exact absurd (lt_nextId hn) (Nat.not_lt.mpr (hold ▸ hx))
    · exact hnum.entry b s' e hbn hb he
  · have hbn' := Nat.not_le.mp hbn
    rw [hext.store b hbn' (Nat.ne_of_lt hbn')] at hb
    split at hb
    · next hmem =>
      obtain ⟨s₀, hs₀, rfl⟩ := Option.map_eq_some_iff.mp hb
      rcases Store.mem_replaceFirst he with he | ⟨e₀, he₀, hold, hor⟩
      · exact .inl ⟨s₀, hs₀, he⟩
      · exact .inr (.inr ⟨hmem, hbn', s₀, e₀, hs₀, he₀, hold, hor⟩)
    · exact .inl ⟨s', hb, he⟩

/-- What a replacement makes of the nodes once the tree of the new node is there: it keeps them, and
it marks the blocks that have had an entry for the old node. -/
structure Succeeded (block old : NodeId) (n : Node) (spec : Spec) (d d' : Document) : Prop where
  node : ∀ y m', d'.node? y = some m' → ∃ m, (d.alloc block .toBeAdded spec).node? y = some m ∧
    m'.parent = m.parent ∧ (m.modified = true → m'.modified = true) ∧
    (m'.modified = true → m.modified = true ∨ d'.Marked y) ∧ m'.pending = m.pending ∧
    (m'.holders = m.holders ∨ y = d.nextId ∧ m'.holders = n.holders)
  live : ∀ y, (d.alloc block .toBeAdded spec).isLive y → d'.isLive y
  marked : ∀ b ∈ block :: n.holders, ∀ s, d.store? b = some s → old ∈ s.nodes → d'.Marked b

theorem succeeded_stageReplacement (h : Linked d) (hs : d.store? block = some s)
    (hn : d.node? old = some n) (hp : n.parent = some block) (spec : Spec) :
    Succeeded block old n spec d (d.stageReplacement block old spec) := by
  obtain ⟨-, hext, -⟩ := h.alloc (h.lt_of_store? hs) .toBeAdded spec
  obtain ⟨l, hf, hblock, hholders⟩ := flags_stageReplacement h hs hn hp spec
  generalize d.stageReplacement block old spec = d' at hf
  have hlive : ∀ y, (d.alloc block .toBeAdded spec).isLive y → d'.isLive y := fun y hy ↦ by
    rw [hf.isLive, Document.isLive, replaced, node?_replaceIn, withSuccessor, node?_modifyNode]
    split <;> simpa [Document.isLive] using hy
  refine ⟨fun y m' hm' ↦ ?_, hlive, fun b hb s hs hold ↦ ?_⟩
  · obtain ⟨m₁, hm₁, hp₁, hh₁, hpend₁, hup, hdown⟩ := hf.node hm'
    obtain ⟨m, hm, hp₀, hmod, hpend₀, hh₀⟩ := node?_replaced hm₁
    rw [hmod] at hup hdown
    exact ⟨m, hm, hp₁.trans hp₀, hup, hdown, hpend₁.trans hpend₀,
      hh₀.imp hh₁.trans fun hy ↦ ⟨hy.1, hh₁.trans hy.2⟩⟩
  · have hbl : b ∈ l := by
      rcases List.mem_cons.mp hb with rfl | hb
      · exact hblock
      · exact hholders b hb (h.lt_of_store? hs) s hs hold
    obtain ⟨m, hm⟩ := isLive_iff.mp (h.isLive_of_store? hs)
    have hlive' := hlive b (isLive_iff.mpr ⟨m, (hext.node b (lt_nextId hm)).trans hm⟩)
    exact hf.marked hbl (hf.isLive b ▸ hlive')

namespace Succeeded

variable {spec : Spec}

theorem node_forth {m : Node} (h : Succeeded block old n spec d d')
    (hm : (d.alloc block .toBeAdded spec).node? y = some m) :
    ∃ m', d'.node? y = some m' ∧ m'.parent = m.parent := by
  obtain ⟨m', hm'⟩ := isLive_iff.mp (h.live y (isLive_iff.mpr ⟨m, hm⟩))
  obtain ⟨m₀, hm₀, hpar, -⟩ := h.node y m' hm'
  rw [hm] at hm₀
  cases hm₀
  exact ⟨m', hm', hpar⟩

theorem isOwnedBy (h : Succeeded block old n spec d d')
    (hx : (d.alloc block .toBeAdded spec).isOwnedBy x b) : d'.isOwnedBy x b := by
  obtain ⟨m, hm, hpar⟩ := isOwnedBy_iff.mp hx
  obtain ⟨m', hm', hpar'⟩ := h.node_forth hm
  exact isOwnedBy_iff.mpr ⟨m', hm', hpar'.trans hpar⟩

theorem marked_fresh (h : Succeeded block old n spec d d')
    (hnum : Numbered d.nextId block .toBeAdded (d.alloc block .toBeAdded spec))
    (hblock : d'.Marked block) (hx : d.nextId ≤ x) : d'.Marked x := by
  intro a m' ha hm'
  have ha' : Below (d.alloc block .toBeAdded spec) a x := ha.mono fun y m hm ↦ by
    obtain ⟨m₀, hm₀, hpar, -⟩ := h.node y m hm
    exact ⟨m₀, hm₀, hpar.symm⟩
  rcases hnum.below hx ha' with hbase | hab
  · obtain ⟨m, hm, -, hmod, -⟩ := h.node a m' hm'
    exact hmod (by simpa using (hnum.node a m hbase hm).1)
  · exact hblock a m' (hab.mono fun y m hm ↦ h.node_forth hm) hm'

end Succeeded

theorem entered_stageReplacement (h : Linked d) (hs : d.store? block = some s)
    (he : s.find? old = some e) (hna : e.state ≠ .applied) (hn : d.node? old = some n)
    (hp : n.parent = some block) {spec : Spec} (hsucc : Succeeded block old n spec d d')
    (hfresh : ∀ x, d.nextId ≤ x → d'.Marked x) {s' : Store} {e' : Entry}
    (hb : (d.replaced block old n spec).store? b = some s') (he' : e' ∈ s'.entries) :
    Entered d (.replace block old spec) d' b e' := by
  obtain ⟨-, -, hnew⟩ := h.alloc (h.lt_of_store? hs) .toBeAdded spec
  rcases mem_replaced h hs hn hp hb he' with ⟨s₀, hs₀, he₀⟩ | ⟨hbn, x, ex, rfl, hx, hx'⟩ |
    ⟨hb', -, s₀, e₀, hs₀, he₀, hold, hor⟩
  · exact .kept hs₀ he₀
  · exact .staged ex hx (hsucc.isOwnedBy hx') (hfresh b hbn)
  · have hm := hsucc.marked b hb' s₀ hs₀ (hold ▸ Store.mem_nodes_of_mem he₀)
    rcases hor with rfl | rfl
    · refine .withdrawn hs₀ he₀ hm (.inr fun hown ↦ ?_)
      rw [hold] at hown ⊢
      rw [owner_unique hown (isOwnedBy_iff.mpr ⟨n, hn, hp⟩)]
      rfl
    · refine .replacing rfl hn hp hb' hs₀ he₀ hold (fun hbb ↦ ?_)
        (hsucc.isOwnedBy (isOwnedBy_iff.mpr ⟨_, hnew, rfl⟩)) hm
      subst hbb
      rw [hs] at hs₀
      cases hs₀
      rwa [Store.eq_of_find? (h.store b s hs).nodup he he₀ hold]

theorem alters_stageReplacement (h : Linked d) (hs : d.store? block = some s)
    (he : s.find? old = some e) (hna : e.state ≠ .applied) (hn : d.node? old = some n)
    (hp : n.parent = some block) (spec : Spec) :
    Alters d (.replace block old spec) (d.stageReplacement block old spec) := by
  have hlt := h.lt_of_store? hs
  obtain ⟨-, hext, hnew⟩ := h.alloc hlt .toBeAdded spec
  have hnum := (Numbered.start h block .toBeAdded).alloc h hlt (Nat.le_refl _) (.inr rfl) spec
  have hsucc := succeeded_stageReplacement h hs hn hp spec
  have halike := alike_stageReplacement h hs hn spec
  generalize d.stageReplacement block old spec = d' at hsucc halike
  obtain ⟨hmem, hnode⟩ := Store.mem_of_find? he
  have hfresh : ∀ x, d.nextId ≤ x → d'.Marked x := fun x hx ↦ hsucc.marked_fresh hnum
    (hsucc.marked block List.mem_cons_self s hs (hnode ▸ Store.mem_nodes_of_mem hmem)) hx
  refine ⟨?_, fun y hy ↦ ?_, fun y m' hy hm' ↦ ?_, fun y m' hy hm' ↦ ?_, fun b s' e' hb he' ↦ ?_,
    fun b hb ↦ .inl (Unmoved.congr ?_ (halike.store? b))⟩
  · rw [halike.nextId, replaced, nextId_replaceIn, withSuccessor, nextId_modifyNode]
    exact hext.next
  · obtain ⟨m, hm⟩ := isLive_iff.mp hy
    exact hsucc.live y (isLive_iff.mpr ⟨m, (hext.node y (lt_nextId hm)).trans hm⟩)
  · obtain ⟨m, hm, hpar, hmod, hmod', hpend, hh⟩ := hsucc.node y m' hm'
    rw [hext.node y hy] at hm
    exact ⟨m, hm, hpar, hh.resolve_right fun he ↦ Nat.lt_irrefl _ (he.1 ▸ hy), hmod, hmod',
      .inl hpend⟩
  · obtain ⟨m, hm, hpar, -, -, hpend, hh⟩ := hsucc.node y m' hm'
    obtain ⟨-, hpend', hhold, -⟩ := hnum.node y m hy hm
    refine ⟨hpend.trans hpend', fun _ ↦ hfresh y hy, fun hne ↦ ?_⟩
    rcases hh with hh | ⟨rfl, hh⟩
    · exact absurd (hh.trans hhold) hne
    · rw [hnew] at hm
      cases hm
      exact ⟨old, n, hn, hpar.trans hp.symm, hh⟩
  · rw [halike.store?] at hb
    exact entered_stageReplacement h hs he hna hn hp hsucc hfresh hb he'
  · intro s' hs'
    rw [replaced, store?_replaceIn (h.holders_nodup hn hp), withSuccessor, store?_modifyNode] at hs'
    have halloc := unmoved_alloc h hlt .toBeAdded spec hb
    split at hs'
    · obtain ⟨s₀, hs₀, rfl⟩ := Option.map_eq_some_iff.mp hs'
      exact halloc s₀ hs₀
    · exact halloc s' hs'

end Document

end BuildScript
