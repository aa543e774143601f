import BuildScript.Proofs.Owned.Edit

namespace BuildScript.Document

variable {full : Prop} {ov ov' : List NodeId} {U : NodeId → Prop} {d d' : Document}
  {b o p t x : NodeId} {n : Node} {s : Store}

namespace Owned

theorem of_tables (h : Owned full ov U d) (hl : Linked d') (hn : d'.nodes = d.nodes)
    (hs : d'.stores = d.stores)
    (hsrc : ∀ q ∈ d'.overlaySources, q.2 ∈ ov ∨ (q.2 < d.nextId ∧ d.node? q.2 = none)) :
    Owned full ov U d' := by
  obtain ⟨id, nodes, stores, overlays, overlaySources, diagnostics, config⟩ := d'
  simp only at hn hs
  subst hn hs
  -- the lineages have to be carried over, as they depend on the document as a whole
  have hbelow : ∀ {o x}, Below ⟨id, d.nodes, d.stores, overlays, overlaySources, diagnostics,
      config⟩ o x ↔ Below d o x := fun {_ _} ↦ Below.congr fun _ ↦ rfl
  refine ⟨hl, fun b s e hb he ↦ (h.entry b s e hb he).congr fun _ ↦ rfl, h.overlay, h.top,
    fun x n hx hh ↦ ?_, h.listed,
      fun x n p hx hp hr ↦ h.listsOwned x n p hx hp (hr.imp_right ?_), hsrc⟩
  · obtain ⟨o, ho, hb⟩ := h.held x n hx hh
    exact ⟨o, ho, hbelow.mpr hb⟩
  · rintro ⟨o, ho, hb⟩
    exact ⟨o, ho, hbelow.mp hb⟩

theorem release (h : Owned full ov (fun _ ↦ False) d) (ho : o ∈ ov)
    (hov : ∀ x, x ∈ ov' ↔ x ∈ ov ∧ x ≠ o) : Owned full ov' (fun _ ↦ False) (d.release o) := by
  obtain ⟨hroot, m, hm, hp, -⟩ := h.overlay o ho
  have hself : o ∈ d.ownedSubtree o := self_mem_ownedSubtree (isLive_iff.mpr ⟨m, hm⟩)
  have htop : ∀ n, d.node? o = some n → n.parent = none := by
    intro n hn
    rw [hm] at hn
    cases hn
    exact hp
  refine h.foldl_evict (.tree h.linked hroot htop) fun x ↦ ?_
  rw [hov]
  refine and_congr_right fun hx ↦ ⟨fun hne hmem ↦ ?_, ?_⟩
  · exact hne (h.overlay_below hx (ownedSubtree_below hmem))
  · rintro hmem rfl
    exact hmem hself

theorem supersede (h : Owned full d.overlays (fun _ ↦ False) d) (source : DocumentId) :
    Owned full (d.supersede source).2.overlays (fun _ ↦ False) (d.supersede source).2 := by
  unfold Document.supersede
  split
  · exact h
  · next o ho =>
    simp only
    obtain ⟨l₁, l₂, hlookup, -⟩ := List.lookup_eq_some_iff.mp ho
    have hforget : Owned full d.overlays (fun _ ↦ False) { d with
        overlaySources := d.overlaySources.filter (·.1 != source)
        overlays := d.overlays.filter (· != o) } := by
      refine h.of_tables (h.linked.of_tables rfl rfl fun p hp ↦ ?_) rfl rfl fun p hp ↦ ?_
      · exact h.linked.sources p (List.mem_filter.mp hp).1
      · exact h.sources p (List.mem_filter.mp hp).1
    obtain ⟨-, -, hov, -⟩ := foldl_evict_fields (Document.ownedSubtree { d with
        overlaySources := d.overlaySources.filter (·.1 != source)
        overlays := d.overlays.filter (· != o) } o) { d with
        overlaySources := d.overlaySources.filter (·.1 != source)
        overlays := d.overlays.filter (· != o) }
    rw [Document.release, hov]
    rcases h.sources (source, o) (by simp [hlookup]) with hmem | ⟨-, hdead⟩
    · exact hforget.release hmem fun x ↦ by simp
    · -- that overlay has gone already
      have hne : ∀ x ∈ d.overlays, x ≠ o := by
        rintro x hx rfl
        obtain ⟨-, m, hm, -⟩ := h.overlay x hx
        simp [hdead] at hm
      have hall : d.overlays.filter (· != o) = d.overlays :=
        List.filter_eq_self.mpr fun x hx ↦ by simpa using hne x hx
      have hnone : Document.ownedSubtree { d with
          overlaySources := d.overlaySources.filter (·.1 != source)
          overlays := d.overlays.filter (· != o) } o = [] := by
        rw [ownedSubtree, if_neg]
        intro hlive
        obtain ⟨m, hm⟩ := isLive_iff.mp hlive
        have hm' : d.node? o = some m := hm
        simp [hdead] at hm'
      rw [hnone, hall]
      simpa [hall] using hforget

theorem pushOverlay (h : Owned full ov U d) :
    Owned full (ov ++ [d.nextId]) U (d.push overlayNode) := by
  have hroot : d.nextId ≠ root := by
    obtain ⟨n, hn, -⟩ := h.linked.root
    exact (Nat.ne_of_lt (lt_nextId hn)).symm
  exact h.pushOver (h.linked.push (by simp [overlayNode]) rfl rfl) rfl (fun _ hU ↦ hU)
    (fun o ↦ by simp [overlayNode]) (fun _ ↦ ⟨hroot, rfl⟩) (by simp [overlayNode])

theorem enroll (h : Owned full ov (fun _ ↦ False) d) (hs : d.store? b = some s)
    (hp : n.parent = some b) (hh : n.holders = []) (hpending : n.pending = none) :
    Owned full ov (fun _ ↦ False) (d.enroll b n) := by
  have hlt := h.linked.lt_of_store? hs
  have hlinked : Linked (d.push n) := by
    refine h.linked.push (fun p hpar ↦ ?_) hh hpending
    rw [hp] at hpar
    cases hpar
    exact hlt
  have hpush := h.push hlinked hp hh fun _ ↦ by simp [hs]
  have hself : (d.push n).node? d.nextId = some n := by rw [node?_push, if_pos rfl]
  refine (hpush.list (x := d.nextId) (fun m hm ↦ ?_) (h.linked.enroll hs hp hh hpending)
    fun s' hs' ↦ ⟨fun e he ↦ ?_, fun y hy ↦ ?_⟩).mono fun x hU ↦ hU.2 (hU.1.resolve_left not_false)
  · rw [hself] at hm
    cases hm
    exact hp
  · rcases Store.mem_add he with he | rfl
    · exact hpush.entry b s' e hs' he
    · exact .fresh hself hp (by simp) (by simp) false
  · rw [Store.nodes_add]
    rcases hy with rfl | hy
    · simp
    · exact List.mem_append_left _ hy

theorem lend (h : Owned full ov U d) (hn : d.node? t = some n) (hp : n.parent = some p)
    (hne : p ≠ b) (hh : n.holders = []) (ho : o ∈ ov) (hb : Below d o t) :
    Owned full ov U (d.lend b t) := by
  have hset : Owned full ov U
      (d.modifyNode t fun m ↦ { m with holders := m.holders ++ [b] }) := by
    refine h.congr_posts (h.linked.addHolder hn hp hne hh)
      (map_node?_modifyNode fun _ _ ↦ by rfl) (fun x m hm hhold ↦ ?_) (fun _ ↦ rfl)
      (nextId_modifyNode _ _ _) rfl
    rcases node?_of_modifyNode hm with ⟨rfl, -⟩ | ⟨-, hm⟩
    · exact ⟨o, ho, hb⟩
    · exact h.held x m hm hhold
  refine hset.modifyStore_of_subset (h.linked.lend hn hp hne hh) fun s hs ↦
    ⟨fun e he ↦ ?_, fun x hx ↦ ?_⟩
  · rcases Store.mem_add he with he | rfl
    · exact hset.entry b s e hs he
    · have hnode : (d.modifyNode t fun m ↦ { m with holders := m.holders ++ [b] }).node? t =
          some { n with holders := n.holders ++ [b] } := by
        rw [node?_modifyNode, if_pos rfl, hn]
        rfl
      refine ⟨⟨_, hnode, ?_⟩, by simp [Entry.fresh], by simp [Entry.fresh], by simp [Entry.fresh]⟩
      simpa [Entry.fresh, hp] using hne
  · rw [Store.nodes_add]
    exact List.mem_append_left _ hx

theorem merge (h : Owned full d.overlays (fun _ ↦ False) d) (other : Document) :
    Owned full (d.merge other).2.overlays (fun _ ↦ False) (d.merge other).2 := by
  have hsup := h.supersede other.id
  refine (merge_induction
    (C := fun d' ↦ Owned full ((d.supersede other.id).2.overlays ++ [d.overlayId other])
      (fun _ ↦ False) d' ∧ d'.overlays = (d.supersede other.id).2.overlays)
    (M := fun d' ↦ Owned full d'.overlays (fun _ ↦ False) d' ∧ d.overlayId other ∈ d'.overlays)
    h.linked other ⟨hsup.pushOverlay, rfl⟩ (fun d' target n s hd _ hQ _ hs ↦ ?_)
    (fun d' hd _ hQ ↦ ?_) ?_ ?_).2.1
  · exact ⟨hQ.1.enroll hs rfl rfl rfl, hQ.2⟩
  · have ha : Alike d' (d'.recordEdges (d.overlayId other)) := .recordEdges _ _
    have hov : ((d'.recordEdges (d.overlayId other)).announce other.id
        (d.overlayId other)).overlays =
        (d.supersede other.id).2.overlays ++ [d.overlayId other] := by
      rw [Document.announce, ha.overlays, hQ.2]
    have hrec := hQ.1.alike ha
    have htop : d.overlayId other ∈ (d.supersede other.id).2.overlays ++ [d.overlayId other] := by
      simp
    rw [hov]
    refine ⟨hrec.of_tables (hrec.linked.announce other.id (hrec.overlay _ htop).1) rfl rfl
      fun q hq ↦ ?_, htop⟩
    rcases List.mem_append.mp hq with hq | hq
    · exact hrec.sources q hq
    · rw [List.mem_singleton.mp hq]
      exact .inl htop
  · rintro d' b t n p hd hQ hs hn hh hp hne hb -
    exact ⟨hQ.1.lend hn hp hne hh hQ.2 hb, hQ.2⟩
  · rintro d' b name kind hd hQ hs
    obtain ⟨s, hs⟩ := Option.isSome_iff_exists.mp hs
    exact ⟨hQ.1.enroll hs rfl rfl rfl, hQ.2⟩

end Owned

end BuildScript.Document
