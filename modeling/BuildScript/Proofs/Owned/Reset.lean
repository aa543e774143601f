import BuildScript.Proofs.Owned.Release

namespace BuildScript.Document

variable {full : Prop} {ov : List NodeId} {d : Document} {b x : NodeId} {e : Entry} {s : Store}

theorem EntryFits.revert (h : EntryFits ov d b e) : EntryFits ov d b e.revert := by
  refine h.change rfl ?_ (by simp [Entry.revert]) (fun hs ↦ hs) fun hs ↦ .inl ?_
  · have hr := h.restore
    obtain ⟨node, state, existsInSource, staged, restore⟩ := e
    cases state <;> simp_all [Entry.revert]
    cases restore with
    | none => simp
    | some st => cases st <;> simp_all
  · obtain ⟨node, state, existsInSource, staged, restore⟩ := e
    cases state <;> simp_all [Entry.revert]

def StagedChild (d : Document) (x : NodeId) : Prop :=
  ∃ b, d.isOwnedBy x b ∧ ∃ s, d.store? b = some s ∧ x ∈ s.stagedNodes

theorem stagedChild_or_mem_reset (hn : d.node? x = some n) (hp : n.parent = some b)
    (hs : d.store? b = some s) (hx : x ∈ s.nodes) : d.StagedChild x ∨ x ∈ s.reset.nodes := by
  obtain ⟨e, he, rfl⟩ := List.mem_map.mp hx
  cases hst : e.staged with
  | true =>
    refine .inl ⟨b, isOwnedBy_iff.mpr ⟨n, hn, hp⟩, s, hs, ?_⟩
    exact Store.mem_stagedNodes.mpr ⟨e, he, hst, rfl⟩
  | false =>
    have hmem : e.revert.node ∈ s.reset.nodes :=
      Store.mem_nodes_of_mem (Store.revert_mem_reset he hst)
    exact .inr hmem

/-- What a reset throws away can go together. Each such node lies below one that has a parent. -/
theorem Detached.reset (h : Linked d) :
    ∃ l, d.resetStores.releaseAll (d.discards d.stores.ids) = l.foldl evict d.resetStores ∧
      Detached d.StagedChild d.resetStores l ∧ ∀ x ∈ l, ∃ t b n, d.resetStores.node? t = some n ∧
        n.parent = some b ∧ Below d.resetStores t x := by
  have hr := h.resetStores
  obtain ⟨l, he, hswept⟩ := releaseAll_swept hr (d.discards d.stores.ids)
  have hparent : ∀ x ∈ l, ∃ t b n, d.resetStores.node? t = some n ∧ n.parent = some b ∧
      Below d.resetStores t x := by
    intro x hx
    obtain ⟨b, t, -, hown, hbt⟩ := ((hswept x).mp hx).exists_top
    obtain ⟨n, hn, hp⟩ := isOwnedBy_iff.mp hown
    exact ⟨t, b, n, hn, hp, hbt⟩
  refine ⟨l, he, ⟨fun hmem ↦ ?_, ?_, fun p hp x hx ↦ ?_, fun x hx n p s hn hp hpl hs hmem ↦ ?_⟩,
    hparent⟩
  · obtain ⟨t, b, n, hn, hp, hbt⟩ := hparent Document.root hmem
    exact hr.not_below_root (hr.ne_root_of_parent hn hp) hbt
  · rintro x n hn ⟨b, hown, s, hs, hx⟩
    obtain ⟨m, hm, hp⟩ := isOwnedBy_iff.mp hown
    exact (hswept x).mpr (.top (mem_discards.mpr ⟨s, hs, hx⟩)
      (isOwnedBy_iff.mpr ⟨m, (node?_resetStores d x).trans hm, hp⟩))
  · exact (hswept x).mpr (((hswept p).mp hp).child hx)
  · cases (hswept x).mp hx with
    | top hdis hown =>
      -- the staged entry is gone, and there was no other
      obtain rfl := owner_unique hown (isOwnedBy_iff.mpr ⟨n, hn, hp⟩)
      obtain ⟨s₀, hs₀, hst⟩ := mem_discards.mp hdis
      rw [store?_resetStores, hs₀] at hs
      cases hs
      obtain ⟨e, he, rfl⟩ := List.mem_map.mp hmem
      obtain ⟨e₀, he₀, hunst, rfl⟩ := Store.mem_reset he
      simp [Store.isStaged_of_mem_stagedNodes (h.store _ s₀ hs₀).nodup he₀ hst] at hunst
    | @child q _ hq hxq =>
      obtain ⟨-, m, hm, hpar⟩ := mem_ownedChildren.mp hxq
      rw [hn] at hm
      cases hm
      rw [hp] at hpar
      cases hpar
      exact hpl ((hswept p).mpr hq)

namespace Owned

theorem resetStores (h : Owned full ov (fun _ ↦ False) d) :
    Owned full ov d.StagedChild d.resetStores := by
  obtain ⟨hn, -, -, hsrc⟩ := foldl_modifyStore_fields d.stores.ids Store.reset d
  refine h.congr_stores h.linked.resetStores hn hsrc fun b s' hs' ↦ ?_
  rw [store?_resetStores] at hs'
  obtain ⟨s, hs, rfl⟩ := Option.map_eq_some_iff.mp hs'
  refine ⟨s, hs, fun e he ↦ ?_, fun x n hn hp hx ↦ ?_⟩
  · obtain ⟨e₀, he₀, -, rfl⟩ := Store.mem_reset he
    exact (h.entry b s e₀ hs he₀).revert
  · exact stagedChild_or_mem_reset hn hp hs (hx.resolve_left not_false)

theorem reset (h : Owned full ov (fun _ ↦ False) d) : Owned full ov (fun _ ↦ False) d.reset := by
  obtain ⟨l, he, hdet, hparent⟩ := Detached.reset h.linked
  have hres := h.resetStores
  rw [reset_eq, he]
  refine (hres.foldl_evict hdet fun o ↦ ⟨fun ho ↦ ⟨ho, fun hol ↦ ?_⟩, fun ho ↦ ho.1⟩).settleNodes
  obtain ⟨t, b, n, hn, hp, hbt⟩ := hparent o hol
  obtain rfl := hres.overlay_below ho hbt
  exact hres.not_mem_of_parent hn hp ho

end Owned

end BuildScript.Document
