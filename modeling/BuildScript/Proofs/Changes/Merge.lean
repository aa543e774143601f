import BuildScript.Proofs.Changes.Edit
import BuildScript.Proofs.Linked.Merge
import BuildScript.Proofs.Linked.Reset

namespace BuildScript.Document

variable {d d₀ d' : Document} {b o p t x : NodeId} {n : Node} {s : Store} {e : Entry}

theorem node?_reset (h : Linked d) (hn : d.reset.node? x = some n) :
    ∃ n₀, d.node? x = some n₀ ∧ n = n₀.settledAt x := by
  obtain ⟨l, hl⟩ := reset_eq_evict h
  rw [hl] at hn
  simp only [settleNodes, node?, Table.get?_map] at hn
  obtain ⟨n₀, hn₀, rfl⟩ := Option.map_eq_some_iff.mp hn
  have hn₁ : (l.foldl evict d.resetStores).node? x = some n₀ := hn₀
  exact ⟨n₀, node?_resetStores d x ▸ (node?_of_foldl_evict hn₁).2, rfl⟩

theorem nextId_reset (h : Linked d) : d.reset.nextId = d.nextId := by
  obtain ⟨l, hl⟩ := reset_eq_evict h
  obtain ⟨hnext, -⟩ := foldl_evict_fields l d.resetStores
  obtain ⟨hnodes, -⟩ := foldl_modifyStore_fields d.stores.ids Store.reset d
  rw [hl]
  refine (Table.size_map ..).trans (hnext.trans ?_)
  rw [nextId, resetStores, hnodes, nextId]

theorem mem_reset (h : Linked d) (hs : d.reset.store? b = some s) (he : e ∈ s.entries) :
    ∃ s₀ e₀, d.store? b = some s₀ ∧ e₀ ∈ s₀.entries ∧ e₀.staged = false ∧ e = e₀.revert := by
  obtain ⟨s₀, hs₀, -, hsub⟩ := store?_of_reset h hs
  obtain ⟨e₀, he₀, hst, rfl⟩ := Store.mem_reset (hsub.subset he)
  exact ⟨s₀, e₀, hs₀, he₀, hst, rfl⟩

/-- What a merge does to a document: older nodes and entries are lost or stay as they are, and all
that is new is settled. A new entry belongs to its block or is borrowed. -/
structure Merged (d d' : Document) : Prop where
  next : d.nextId ≤ d'.nextId
  overlay : ∀ o ∈ d'.overlays, o ∈ d.overlays ∨ d.nextId ≤ o ∧
    ∃ n, d'.node? o = some n ∧ n.parent = none ∧ n.holders = []
  node : ∀ x n', x < d.nextId → d'.node? x = some n' → ∃ n, d.node? x = some n ∧
    n'.parent = n.parent ∧ n'.holders = n.holders ∧ n'.modified = n.modified ∧
    n'.pending = n.pending
  fresh : ∀ x n', d.nextId ≤ x → d'.node? x = some n' → n'.modified = false ∧ n'.pending = none
  entry : ∀ b s' e', d'.store? b = some s' → e' ∈ s'.entries →
    (∃ s, d.store? b = some s ∧ e' ∈ s.entries) ∨ ∃ x, d.nextId ≤ x ∧
      (e' = .fresh x .existing false ∧ d'.isOwnedBy x b ∨
        e' = .fresh x .applied false ∧ ∃ n, d'.node? x = some n ∧ b ∈ n.holders)
  unmoved : ∀ b, d.Unmoved b → d'.Unmoved b

namespace Merged

theorem supersede (h : Linked d) (source : DocumentId) : Merged d (d.supersede source).2 := by
  have hrefl : ∀ overlays, (∀ o ∈ overlays, o ∈ d.overlays) → ∀ sources,
      Merged d { d with overlays, overlaySources := sources } := fun overlays hov sources ↦
    ⟨Nat.le_refl _, fun o ho ↦ .inl (hov o ho), fun x n' _ hn' ↦ ⟨n', hn', rfl, rfl, rfl, rfl⟩,
      fun x n' hx hn' ↦ absurd (lt_nextId (d := d) hn') (Nat.not_lt.mpr hx),
      fun b s' e' hs' he' ↦ .inl ⟨s', hs', he'⟩, fun _ hb ↦ hb⟩
  unfold Document.supersede
  split
  · exact hrefl d.overlays (fun _ ho ↦ ho) d.overlaySources
  · next o ho =>
    have hd := hrefl (d.overlays.filter (· != o)) (fun _ ho ↦ (List.mem_filter.mp ho).1)
      (d.overlaySources.filter (·.1 != source))
    dsimp only
    generalize hg : ({ d with
      overlaySources := d.overlaySources.filter (·.1 != source)
      overlays := d.overlays.filter (· != o) } : Document) = g at hd
    have hlinked : Linked g := by
      subst hg
      exact h.of_tables rfl rfl fun p hp ↦ h.sources p (List.mem_filter.mp hp).1
    have hov : g.overlays ⊆ d.overlays := by
      subst hg
      exact fun _ ho ↦ (List.mem_filter.mp ho).1
    obtain ⟨hnext, -, hoverlays, -⟩ := foldl_evict_fields (g.ownedSubtree o) g
    refine ⟨Nat.le_trans hd.next (Nat.le_of_eq hnext.symm), fun o' ho' ↦ .inl (hov ?_),
      fun x n' hx hn' ↦ hd.node x n' hx (node?_of_release hn'),
      fun x n' hx hn' ↦ hd.fresh x n' hx (node?_of_release hn'), fun b s' e' hs' he' ↦ ?_,
      fun b hb s' hs' ↦ ?_⟩
    · rwa [Document.release, hoverlays] at ho'
    · obtain ⟨s, hs, -, hsub⟩ := store?_foldl_evict_sublist hlinked.distinct hs'
      subst hg
      exact .inl ⟨s, hs, hsub.subset he'⟩
    · obtain ⟨s, hs, hkept, -⟩ := store?_foldl_evict_sublist hlinked.distinct hs'
      exact hkept.trans (hd.unmoved b hb s hs)

theorem carry (hm : Merged d₀ d) (hnext : d.nextId ≤ d'.nextId) (hov : d'.overlays = d.overlays)
    (hback : ∀ x n', d'.node? x = some n' →
      (d₀.nextId ≤ x ∧ n'.modified = false ∧ n'.pending = none) ∨
      ∃ n, d.node? x = some n ∧ n'.parent = n.parent ∧ n'.modified = n.modified ∧
        n'.pending = n.pending ∧ (x < d₀.nextId → n'.holders = n.holders))
    (hforth : ∀ x n, d.node? x = some n → ∃ n', d'.node? x = some n' ∧ n'.parent = n.parent ∧
      n.holders ⊆ n'.holders ∧ (n.parent = none → n'.holders = n.holders))
    (hs : ∀ b s' e', d'.store? b = some s' → e' ∈ s'.entries →
      (∃ s, d.store? b = some s ∧ e' ∈ s.entries) ∨ ∃ x, d₀.nextId ≤ x ∧
        (e' = .fresh x .existing false ∧ d'.isOwnedBy x b ∨
          e' = .fresh x .applied false ∧ ∃ n, d'.node? x = some n ∧ b ∈ n.holders))
    (hu : ∀ b, d.Unmoved b → d'.Unmoved b) : Merged d₀ d' := by
  refine ⟨Nat.le_trans hm.next hnext, fun o ho ↦ ?_, fun x n' hx hn' ↦ ?_, fun x n' hx hn' ↦ ?_,
    fun b s' e' hs' he' ↦ ?_, fun b hb ↦ hu b (hm.unmoved b hb)⟩
  · refine (hm.overlay o (hov ▸ ho)).imp_right fun ⟨hle, n, hn, hp, hh⟩ ↦ ⟨hle, ?_⟩
    obtain ⟨n', hn', hp', -, hh'⟩ := hforth o n hn
    exact ⟨n', hn', hp'.trans hp, (hh' hp).trans hh⟩
  · rcases hback x n' hn' with ⟨hle, -⟩ | ⟨n, hn, hp, hmod, hpend, hh⟩
    · exact absurd hx (Nat.not_lt.mpr hle)
    · obtain ⟨n₀, hn₀, hp₀, hh₀, hmod₀, hpend₀⟩ := hm.node x n hx hn
      exact ⟨n₀, hn₀, hp.trans hp₀, (hh hx).trans hh₀, hmod.trans hmod₀, hpend.trans hpend₀⟩
  · rcases hback x n' hn' with ⟨-, hrest⟩ | ⟨n, hn, -, hmod, hpend, -⟩
    · exact hrest
    · obtain ⟨hmod₀, hpend₀⟩ := hm.fresh x n hx hn
      exact ⟨hmod.trans hmod₀, hpend.trans hpend₀⟩
  · rcases hs b s' e' hs' he' with ⟨s, hs, he⟩ | hnew
    · refine (hm.entry b s e' hs he).imp_right fun ⟨x, hx, hor⟩ ↦ ⟨x, hx, ?_⟩
      refine hor.imp (fun ⟨he, hown⟩ ↦ ⟨he, ?_⟩) fun ⟨he, n, hn, hh⟩ ↦ ⟨he, ?_⟩
      · obtain ⟨n, hn, hp⟩ := isOwnedBy_iff.mp hown
        obtain ⟨n', hn', hp', -⟩ := hforth x n hn
        exact isOwnedBy_iff.mpr ⟨n', hn', hp'.trans hp⟩
      · obtain ⟨n', hn', -, hsub, -⟩ := hforth x n hn
        exact ⟨n', hn', hsub hh⟩
    · exact .inr hnew

theorem push (hm : Merged d₀ d) (h : Linked d) (hmod : n.modified = false)
    (hpending : n.pending = none) : Merged d₀ (d.push n) := by
  refine hm.carry (by simp) rfl (fun x n' hn' ↦ ?_) (fun x m hx ↦ ?_) (fun b s' e' hs' he' ↦ ?_)
    fun b hb s' hs' ↦ ?_
  · rcases node?_of_push hn' with ⟨rfl, rfl⟩ | hn'
    · exact .inl ⟨hm.next, hmod, hpending⟩
    · exact .inr ⟨n', hn', rfl, rfl, rfl, fun _ ↦ rfl⟩
  · refine ⟨m, ?_, rfl, fun _ h ↦ h, fun _ ↦ rfl⟩
    rw [node?_push, if_neg (Nat.ne_of_lt (lt_nextId hx)), hx]
  · exact .inl ⟨s', store?_of_mem_push h.sizes hs' he', he'⟩
  · rcases store?_of_push h.sizes hs' with ⟨-, rfl⟩ | hs'
    · rfl
    · exact hb s' hs'

theorem enroll (hm : Merged d₀ d) (h : Linked d) (hmod : n.modified = false)
    (hpending : n.pending = none) (hp : n.parent = some b) : Merged d₀ (d.enroll b n) := by
  refine (hm.push h hmod hpending).carry (Nat.le_refl _) rfl
    (fun x n' hn' ↦ .inr ⟨n', hn', rfl, rfl, rfl, fun _ ↦ rfl⟩)
    (fun x m hm ↦ ⟨m, hm, rfl, fun _ h ↦ h, fun _ ↦ rfl⟩) (fun c s' e' hs' he' ↦ ?_)
    fun c hc ↦ hc.modifyStore fun _ _ hs ↦ hs
  rcases mem_store?_add hs' he' with hold | ⟨rfl, rfl⟩
  · exact .inl hold
  · refine .inr ⟨d.nextId, hm.next, .inl ⟨rfl, ?_⟩⟩
    exact isOwnedBy_iff.mpr ⟨n, by rw [node?_enroll, if_pos rfl], hp⟩

theorem lend (hm : Merged d₀ d) (hn : d.node? t = some n) (hp : n.parent = some p)
    (ht : d₀.nextId ≤ t) (b : NodeId) : Merged d₀ (d.lend b t) := by
  have hself : (d.lend b t).node? t = some { n with holders := n.holders ++ [b] } := by
    rw [node?_lend, if_pos rfl, hn]
    rfl
  have hother : ∀ x, x ≠ t → (d.lend b t).node? x = d.node? x := fun x hx ↦ by
    rw [node?_lend, if_neg hx.symm]
  refine hm.carry (Nat.le_of_eq (nextId_modifyNode ..).symm) rfl (fun x n' hn' ↦ ?_)
    (fun x m hm ↦ ?_) (fun c s' e' hs' he' ↦ ?_) fun c hc ↦ ?_
  · by_cases hx : x = t
    · subst hx
      rw [hself] at hn'
      cases hn'
      exact .inr ⟨n, hn, rfl, rfl, rfl, fun hlt ↦ absurd hlt (Nat.not_lt.mpr ht)⟩
    · exact .inr ⟨n', hother x hx ▸ hn', rfl, rfl, rfl, fun _ ↦ rfl⟩
  · by_cases hx : x = t
    · subst hx
      rw [hn] at hm
      cases hm
      exact ⟨_, hself, rfl, by simp, fun hnone ↦ by simp [hp] at hnone⟩
    · exact ⟨m, (hother x hx).trans hm, rfl, fun _ h ↦ h, fun _ ↦ rfl⟩
  · rcases mem_store?_add hs' he' with hold | ⟨rfl, rfl⟩
    · exact .inl hold
    · exact .inr ⟨t, ht, .inr ⟨rfl, _, hself, by simp⟩⟩
  · exact hc.modifyStore fun _ _ hs ↦ hs

theorem recordEdges (hm : Merged d₀ d) (i : NodeId) : Merged d₀ (d.recordEdges i) := by
  have hf := Flags.recordEdges d i
  refine hm.carry (Nat.le_of_eq hf.nextId.symm) hf.overlays (fun x m' hm' ↦ ?_)
    (fun x m hm ↦ ?_) (fun c s' e' hs' he' ↦ .inl ⟨s', hf.store? c ▸ hs', he'⟩)
    fun c hc ↦ hc.congr (hf.store? c)
  · obtain ⟨m, hm, he⟩ := hf.node? hm'
    obtain ⟨hp, hh, hpending⟩ := Node.fields_of_bare he
    have hiff := hf.modified x m m' hm hm'
    simp only [List.not_mem_nil, false_and, exists_false, or_false] at hiff
    exact .inr ⟨m, hm, hp, Bool.eq_iff_iff.mpr hiff, hpending, fun _ ↦ hh⟩
  · obtain ⟨m', hm', he⟩ := hf.toAlike.symm.node? hm
    obtain ⟨hp, hh, -⟩ := Node.fields_of_bare he
    exact ⟨m', hm', hp.symm, fun _ h ↦ hh ▸ h, fun _ ↦ hh.symm⟩

theorem announce (hm : Merged d₀ d) (source : DocumentId) (ho : d₀.nextId ≤ o)
    (htop : ∃ n, d.node? o = some n ∧ n.parent = none ∧ n.holders = []) :
    Merged d₀ (d.announce source o) := by
  refine ⟨hm.next, fun o' ho' ↦ ?_, hm.node, hm.fresh, hm.entry, hm.unmoved⟩
  rcases List.mem_append.mp ho' with ho' | ho'
  · exact hm.overlay o' ho'
  · rw [List.mem_singleton.mp ho']
    exact .inr ⟨ho, htop⟩

end Merged

theorem merged (h : Linked d) (other : Document) : Merged d (d.merge other).2 := by
  have hsup := h.supersede other.id
  have hnext : d.nextId ≤ d.overlayId other := (Merged.supersede h other.id).next
  refine (merge_induction (C := Merged d) (M := Merged d) h other
    ((Merged.supersede h other.id).push hsup rfl rfl) (fun d' target n s hd _ hm _ _ ↦ ?_)
    (fun d' hd hf hm ↦ ?_) ?_ ?_).2
  · exact hm.enroll hd rfl rfl rfl
  · have hf' := hf.alike (.recordEdges _ (d.overlayId other))
    obtain ⟨n, hn, hp⟩ := hf'.top
    exact (hm.recordEdges _).announce other.id hnext
      ⟨n, hn, hp, hf'.holders _ n (Nat.le_refl _) hn⟩
  · rintro d' b t n p hd hm - hn hh hp - hb -
    exact hm.lend hn hp (Nat.le_trans hnext (hb.le hd.older)) b
  · rintro d' b name kind hd hm -
    exact hm.enroll hd rfl rfl rfl

end BuildScript.Document
