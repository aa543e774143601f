import BuildScript.Proofs.Changes.Edit
import BuildScript.Proofs.Changes.Run
import BuildScript.Proofs.Ownership

namespace BuildScript.Document

variable {D D' U U' : NodeId → Prop} {ov ov' l : List NodeId} {d d' : Document}
  {b id o p x y : NodeId} {n : Node} {s : Store} {state : EntryState} {spec : Spec}

/-- A container lists all that it owns, but for the nodes in `U`, which are not listed yet or not
any more. Outside `D` it lists live nodes only. Only the root and the overlays `ov` have no
parent. -/
structure ListsOwned (D : NodeId → Prop) (ov : List NodeId) (U : NodeId → Prop) (d : Document) :
    Prop where
  linked : Linked d
  live : ∀ b s, d.store? b = some s → ¬ D b → ∀ x ∈ s.nodes, d.isLive x
  listed : ∀ x n p s, d.node? x = some n → n.parent = some p → d.store? p = some s →
    U x ∨ x ∈ s.nodes
  top : ∀ x n, d.node? x = some n → n.parent = none → x = root ∨ x ∈ ov
  roof : ∀ o ∈ ov, o < d.nextId ∧ (d.isLive o → (d.store? o).isSome)
  source : ∀ q ∈ d.overlaySources, q.2 < d.nextId ∧ ∀ n, d.node? q.2 = some n → n.parent = none

namespace ListsOwned

theorem mono (h : ListsOwned D ov U d) (hD : ∀ b, D b → D' b) (hU : ∀ x, U x → U' x) :
    ListsOwned D' ov U' d where
  linked := h.linked
  live b s hs hb := h.live b s hs fun hbD ↦ hb (hD b hbD)
  listed x n p s hn hp hs := (h.listed x n p s hn hp hs).imp_left (hU x)
  top := h.top
  roof := h.roof
  source := h.source

theorem mono_unlisted (h : ListsOwned D ov U d) (hU : ∀ x, U x → U' x) : ListsOwned D ov U' d :=
  h.mono (fun _ hb ↦ hb) hU

theorem congr_stores (h : ListsOwned D ov U d) (hl : Linked d') (hn : d'.nodes = d.nodes)
    (hsrc : d'.overlaySources = d.overlaySources)
    (hs : ∀ b s', d'.store? b = some s' → ∃ s, d.store? b = some s ∧
      (∀ x ∈ s'.nodes, x ∈ s.nodes ∨ d.isLive x) ∧
      ∀ x n, d.node? x = some n → n.parent = some b → U x ∨ x ∈ s.nodes → U' x ∨ x ∈ s'.nodes) :
    ListsOwned D ov U' d' := by
  have hnode : ∀ x, d'.node? x = d.node? x := fun x ↦ by simp only [Document.node?, hn]
  have hsome : ∀ p, (d'.store? p).isSome = (d.store? p).isSome := fun p ↦ by
    rw [hl.keyed, hnode, h.linked.keyed]
  refine ⟨hl, fun b s' hb hD x hx ↦ ?_, fun x n p s' hx hp hs' ↦ ?_,
    fun x n hx ↦ h.top x n (hnode x ▸ hx), fun o ho ↦ ?_, fun q hq ↦ ?_⟩
  · obtain ⟨s, hs, hlive, -⟩ := hs b s' hb
    rw [isLive, hnode]
    exact (hlive x hx).elim (h.live b s hs hD x) fun hx ↦ hx
  · rw [hnode] at hx
    obtain ⟨s, hs, -, hkeep⟩ := hs p s' hs'
    exact hkeep x n hx hp (h.listed x n p s hx hp hs)
  · rw [Document.nextId, hn, isLive, hnode, hsome]
    exact h.roof o ho
  · rw [Document.nextId, hn, hnode]
    exact h.source q (hsrc ▸ hq)

theorem modifyStore (h : ListsOwned D ov U d) {f : Store → Store} (hl : Linked (d.modifyStore b f))
    (hf : ∀ s, d.store? b = some s → (∀ x ∈ (f s).nodes, x ∈ s.nodes ∨ d.isLive x) ∧
      ∀ x n, d.node? x = some n → n.parent = some b → U x ∨ x ∈ s.nodes → U' x ∨ x ∈ (f s).nodes)
    (hU : ∀ x n, d.node? x = some n → n.parent ≠ some b → U x → U' x) :
    ListsOwned D ov U' (d.modifyStore b f) := by
  refine h.congr_stores hl rfl rfl fun b' s' hs' ↦ ?_
  rcases store?_of_modifyStore hs' with ⟨rfl, s, hs, rfl⟩ | ⟨hb, hs'⟩
  · exact ⟨s, hs, hf s hs⟩
  · refine ⟨s', hs', fun x hx ↦ .inl hx, fun x n hn hp hx ↦ hx.imp_left ?_⟩
    refine hU x n hn fun hpb ↦ hb ?_
    rw [hp] at hpb
    exact (Option.some.inj hpb).symm

theorem rearrange (h : ListsOwned D ov U d) {f : Store → Store} (hl : Linked (d.modifyStore b f))
    (hf : ∀ s, d.store? b = some s → ∀ x, x ∈ (f s).nodes ↔ x ∈ s.nodes) :
    ListsOwned D ov U (d.modifyStore b f) :=
  h.modifyStore hl (fun s hs ↦ ⟨fun x hx ↦ .inl ((hf s hs x).mp hx),
    fun x _ _ _ hx ↦ hx.imp_right (hf s hs x).mpr⟩) fun _ _ _ _ hU ↦ hU

theorem congr_nodes (h : ListsOwned D ov U d) (hl : Linked d')
    (hn : ∀ x, (d'.node? x).map Node.parent = (d.node? x).map Node.parent)
    (hs : ∀ i, d'.store? i = d.store? i) (hnext : d'.nextId = d.nextId)
    (hsrc : ∀ q ∈ d'.overlaySources, q.2 < d.nextId ∧
      ∀ n, d.node? q.2 = some n → n.parent = none) : ListsOwned D ov U d' := by
  have hnode : ∀ x n', d'.node? x = some n' → ∃ n, d.node? x = some n ∧ n.parent = n'.parent := by
    intro x n' hn'
    have hp := hn x
    rw [hn'] at hp
    exact Option.map_eq_some_iff.mp hp.symm
  have hlive : ∀ x, d'.isLive x = d.isLive x := by
    intro x
    have hx := congrArg Option.isSome (hn x)
    rwa [Option.isSome_map, Option.isSome_map] at hx
  refine ⟨hl, fun b s hb hD x hx ↦ ?_, fun x n' p s hn' hp hps ↦ ?_, fun x n' hn' hp ↦ ?_,
    fun o ho ↦ ?_, fun q hq ↦ ?_⟩
  · exact (hlive x).trans (h.live b s ((hs b).symm.trans hb) hD x hx)
  · obtain ⟨n, hn, hpar⟩ := hnode x n' hn'
    exact h.listed x n p s hn (hpar.trans hp) ((hs p).symm.trans hps)
  · obtain ⟨n, hn, hpar⟩ := hnode x n' hn'
    exact h.top x n hn (hpar.trans hp)
  · rw [hs, hnext, hlive]
    exact h.roof o ho
  · obtain ⟨hlt, htop⟩ := hsrc q hq
    refine ⟨hnext ▸ hlt, fun n' hn' ↦ ?_⟩
    obtain ⟨n, hn, hpar⟩ := hnode q.2 n' hn'
    exact hpar ▸ htop n hn

theorem alike (h : ListsOwned D ov U d) (ha : Alike d d') : ListsOwned D ov U d' := by
  refine h.congr_nodes (h.linked.alike ha) (fun x ↦ ?_) ha.store? ha.nextId
    fun q hq ↦ h.source q (ha.overlaySources ▸ hq)
  have hb := congrArg (Option.map Node.parent) (ha.bare x)
  rw [Option.map_map, Option.map_map] at hb
  exact hb

theorem modifyNode (h : ListsOwned D ov U d) {f : Node → Node} (hl : Linked (d.modifyNode x f))
    (hf : ∀ n, (f n).parent = n.parent) : ListsOwned D ov U (d.modifyNode x f) :=
  h.congr_nodes hl (map_node?_modifyNode fun n _ ↦ hf n) (fun _ ↦ rfl) (nextId_modifyNode d x f)
    h.source

theorem push (h : ListsOwned D ov U d) (hl : Linked (d.push n)) (hU : ∀ x, U x → U' x)
    (hov : ∀ o, o ∈ ov' ↔ o ∈ ov ∨ o = d.nextId ∧ n.parent = none)
    (htop : n.parent = none → n.isContainer)
    (hchild : n.parent ≠ none → U' d.nextId) : ListsOwned D ov' U' (d.push n) := by
  have hext : Extends d.nextId d (d.push n) := .push h.linked n _
  refine ⟨hl, fun b s hs hD x hx ↦ ?_, fun x m p s hm hp hs ↦ ?_, fun x m hm hp ↦ ?_,
    fun o ho ↦ ?_, fun q hq ↦ ?_⟩
  · obtain ⟨e, he, rfl⟩ := List.mem_map.mp hx
    have hs₀ := store?_of_mem_push h.linked.sizes hs he
    obtain ⟨m, hm⟩ := isLive_iff.mp (h.live b s hs₀ hD e.node hx)
    exact isLive_iff.mpr ⟨m, (hext.node e.node (lt_nextId hm)).trans hm⟩
  · rcases node?_of_push hm with ⟨rfl, rfl⟩ | hm
    · exact .inl (hchild (by simp [hp]))
    · have hlt := Nat.lt_trans (h.linked.older x m p hm hp) (lt_nextId hm)
      rw [hext.store p hlt (Nat.ne_of_lt hlt)] at hs
      exact (h.listed x m p s hm hp hs).imp_left (hU x)
  · rcases node?_of_push hm with ⟨rfl, rfl⟩ | hm
    · exact .inr ((hov _).mpr (.inr ⟨rfl, hp⟩))
    · exact (h.top x m hm hp).imp_right fun ho ↦ (hov x).mpr (.inl ho)
  · rcases (hov o).mp ho with ho | ⟨rfl, hp⟩
    · obtain ⟨hlt, hsome⟩ := h.roof o ho
      rw [hext.store o hlt (Nat.ne_of_lt hlt), isLive, hext.node o hlt]
      exact ⟨Nat.lt_of_lt_of_le hlt hext.next, hsome⟩
    · rw [nextId_push, store?_push h.linked.sizes, if_pos rfl, if_pos (htop hp)]
      exact ⟨Nat.lt_succ_self _, fun _ ↦ rfl⟩
  · obtain ⟨hlt, htop⟩ := h.source q hq
    exact ⟨Nat.lt_of_lt_of_le hlt hext.next, fun m hm ↦ htop m (hext.node q.2 hlt ▸ hm)⟩

theorem list (h : ListsOwned D ov U d) (hn : d.node? x = some n) (hp : n.parent = some b)
    {f : Store → Store} (hl : Linked (d.modifyStore b f))
    (hf : ∀ s, d.store? b = some s → (f s).nodes.Perm (x :: s.nodes)) :
    ListsOwned D ov (fun y ↦ U y ∧ y ≠ x) (d.modifyStore b f) := by
  refine h.modifyStore hl (fun s hs ↦ ⟨fun y hy ↦ ?_, fun y m hm hpar hy ↦ ?_⟩)
    fun y m hm hpar hU ↦ ⟨hU, ?_⟩
  · rcases List.mem_cons.mp ((hf s hs).mem_iff.mp hy) with rfl | hy
    · exact .inr (isLive_iff.mpr ⟨n, hn⟩)
    · exact .inl hy
  · by_cases hyx : y = x
    · exact .inr ((hf s hs).mem_iff.mpr (List.mem_cons.mpr (.inl hyx)))
    · exact hy.imp (fun hU ↦ ⟨hU, hyx⟩) fun hmem ↦
        (hf s hs).mem_iff.mpr (List.mem_cons_of_mem _ hmem)
  · rintro rfl
    rw [hn] at hm
    cases hm
    exact hpar hp

end ListsOwned

theorem ListsOwned.alloc {U : NodeId → Prop} (h : ListsOwned D ov U d) (hp : parent < d.nextId)
    (state : EntryState) (spec : Spec) :
    ListsOwned D ov (fun x ↦ U x ∨ x = d.nextId) (d.alloc parent state spec) := by
  refine ((Linked.alloc_induction state
    (M := fun d _ _ d' ↦ ∀ U, ListsOwned D ov U d → ListsOwned D ov (fun x ↦ U x ∨ x = d.nextId) d')
    (N := fun d _ _ d' ↦ ∀ U, ListsOwned D ov U d → ListsOwned D ov U d')
    (fun d parent spec d' _ _ hlink _ ih U h ↦ ?_) (fun _ _ _ _ h ↦ h)
    (fun d parent spec rest d' d'' hd hp ha _ ih ih' U h ↦ ?_) h.linked hp).1 spec).2 U h
  · exact ih _
      (h.push hlink (fun _ ↦ .inl) (by simp [headNode]) (by simp [headNode]) fun _ ↦ .inr rfl)
  · refine ih' U (((ih U h).list ha.top rfl (ha.listTree hd hp) fun s _ ↦ ?_).mono_unlisted
      fun x hU ↦ hU.1.resolve_right hU.2)
    rw [Store.nodes_add]
    exact List.perm_append_singleton _ _

namespace ListsOwned

theorem graft (h : ListsOwned D ov (fun _ ↦ False) d) (hs : d.store? b = some s)
    {list : NodeId → Store → Store} (hl : Linked (d.graft b state spec list))
    (hnodes : (list d.nextId s).nodes.Perm (d.nextId :: s.nodes)) :
    ListsOwned D ov (fun _ ↦ False) (d.graft b state spec list) := by
  have hlt := h.linked.lt_of_store? hs
  obtain ⟨-, hext, hnode⟩ := h.linked.alloc hlt state spec
  have halloc := h.alloc hlt state spec
  refine ((halloc.list hnode rfl (hl.alike (Alike.recordEdges _ _).symm)
    fun s₁ hs₁ ↦ ?_).mono_unlisted
    fun x hU ↦ hU.2 (hU.1.resolve_left not_false)).alike (.recordEdges _ _)
  rw [hext.store b hlt (Nat.ne_of_lt hlt), hs] at hs₁
  cases hs₁
  exact hnodes

theorem graft_add (h : ListsOwned D ov (fun _ ↦ False) d) (hs : d.store? b = some s)
    (state : EntryState) (spec : Spec) (existsInSource : Bool) :
    ListsOwned D ov (fun _ ↦ False)
      (d.graft b state spec fun id s ↦ s.add id state existsInSource) := by
  refine h.graft hs (h.linked.graft_add hs state spec existsInSource) ?_
  rw [Store.nodes_add]
  exact List.perm_append_singleton _ _

theorem graft_addAt (h : ListsOwned D ov (fun _ ↦ False) d) (hs : d.store? b = some s)
    (state : EntryState) (spec : Spec) (existsInSource : Bool) (index : Int) :
    ListsOwned D ov (fun _ ↦ False)
      (d.graft b state spec fun id s ↦ s.addAt id state existsInSource index) :=
  h.graft hs (h.linked.graft_addAt hs state spec existsInSource index)
    (Store.nodes_addAt _ _ _)

theorem add (h : ListsOwned D ov (fun _ ↦ False) d) (hs : d.store? b = some s)
    (spec : Spec) : ListsOwned D ov (fun _ ↦ False)
      ((d.stage b spec fun id s ↦ s.add id .toBeAdded false).placeNew b d.nextId) := by
  have hstage :
      ListsOwned D ov (fun _ ↦ False) (d.stage b spec fun id s ↦ s.add id .toBeAdded false) :=
    (h.graft_add hs .toBeAdded spec false).alike (.markModified _ b)
  have hl := hstage.linked.placeNew b d.nextId
  rcases placeNew_cases (d.stage b spec fun id s ↦ s.add id .toBeAdded false) b d.nextId with
    ha | ⟨s', target, hs', ht, he⟩
  · exact hstage.alike ha
  · rw [he] at hl ⊢
    refine hstage.rearrange hl fun s₁ hs₁ x ↦ ?_
    rw [hs'] at hs₁
    cases hs₁
    refine (Store.realizeOrder_induction (P := fun s₁ ↦ s₁.nodes.Perm s'.nodes) s'.placeable
      (fun s₁ node index hP _ ↦ ?_) ht (.refl _)).mem_iff
    exact (Store.nodes_moveTo index).trans hP

theorem hideNamed (h : ListsOwned D ov U d) (b : NodeId) (name : String) :
    ListsOwned D ov U (d.hideNamed b name) := by
  refine h.rearrange (h.linked.hideNamed b name) fun s _ x ↦ ?_
  rw [Store.hideAll, Store.nodes_mapPicked (f := fun e ↦ { e with state := .hidden }) fun _ ↦ rfl]

theorem stageReplacement (h : ListsOwned D ov (fun _ ↦ False) d) {old : NodeId}
    (hs : d.store? b = some s) (hold : old ∈ s.nodes) (hn : d.node? old = some n)
    (hp : n.parent = some b) (spec : Spec) :
    ListsOwned D ov (fun _ ↦ False) (d.stageReplacement b old spec) := by
  have hlt := h.linked.lt_of_store? hs
  obtain ⟨-, hext, hnode⟩ := h.linked.alloc hlt .toBeAdded spec
  refine alike ?_ (alike_stageReplacement h.linked hs hn spec)
  have hsucc : ListsOwned D ov (fun x ↦ False ∨ x = d.nextId) (d.withSuccessor b n spec) :=
    (h.alloc hlt .toBeAdded spec).modifyNode
      (h.linked.withSuccessor hs hn hp spec) fun _ ↦ rfl
  have hnew : (d.withSuccessor b n spec).node? d.nextId =
      some { headNode b .toBeAdded spec with holders := n.holders } := by
    rw [withSuccessor, node?_modifyNode, if_pos rfl, hnode]
    rfl
  have hb : (d.withSuccessor b n spec).store? b = some s :=
    (hext.store b hlt (Nat.ne_of_lt hlt)).trans hs
  obtain ⟨hnodes, -, -, hsrc⟩ := foldl_modifyStore_fields (b :: n.holders) (·.replace old d.nextId)
    (d.withSuccessor b n spec)
  refine hsucc.congr_stores (h.linked.replaced hs hn hp spec) hnodes hsrc fun c s' hs' ↦ ?_
  rw [replaced, store?_replaceIn (h.linked.holders_nodup hn hp)] at hs'
  have hcase : ∃ s, (d.withSuccessor b n spec).store? c = some s ∧
      (s' = s.replace old d.nextId ∨ s' = s ∧ c ≠ b) := by
    split at hs'
    · obtain ⟨s, hs, rfl⟩ := Option.map_eq_some_iff.mp hs'
      exact ⟨s, hs, .inl rfl⟩
    · next hc => exact ⟨s', hs', .inr ⟨rfl, fun he ↦ hc (he ▸ List.mem_cons_self)⟩⟩
  obtain ⟨s₁, hs₁, hor⟩ := hcase
  refine ⟨s₁, hs₁, fun x hx ↦ ?_, fun x m hm hpar hx ↦ .inr ?_⟩
  · rcases hor with rfl | ⟨rfl, -⟩
    · rcases Store.mem_nodes_replace.mp hx with hx | ⟨rfl, -⟩
      · exact .inl hx
      · exact .inr (isLive_iff.mpr ⟨_, hnew⟩)
    · exact .inl hx
  · -- the new node is listed in the block it belongs to
    rcases hx with hx | hx
    · obtain rfl := hx.resolve_left not_false
      rw [hnew] at hm
      cases hm
      obtain rfl : b = c := by simpa [headNode] using hpar
      rw [hb] at hs₁
      cases hs₁
      obtain rfl := hor.resolve_right fun hne ↦ hne.2 rfl
      exact Store.mem_nodes_replace.mpr (.inr ⟨rfl, hold⟩)
    · rcases hor with rfl | ⟨rfl, -⟩
      · exact Store.mem_nodes_replace.mpr (.inl hx)
      · exact hx

theorem stageValue (h : ListsOwned D ov U d) (hn : d.node? x = some n) (hset : n.isSettable)
    (value : Value) : ListsOwned D ov U (d.stageValue x value) := by
  have hl := h.linked.stageValue hn hset value
  have hpending : ListsOwned D ov U (d.modifyNode x fun n ↦ { n with pending := some value }) :=
    h.modifyNode ((hl.alike (Alike.markModified _ x).symm).alike (Alike.recordEdges _ x).symm)
      fun _ ↦ rfl
  exact (hpending.alike (.recordEdges _ x)).alike (.markModified _ x)

theorem edit (h : ListsOwned D ov (fun _ ↦ False) d) (edit : Edit) :
    ListsOwned D ov (fun _ ↦ False) (edit.run d).2 := by
  have hedited := edit.edited d
  generalize (edit.run d).2 = d' at hedited
  cases hedited with
  | unchanged => exact h
  | addParsed spec hs => exact h.graft_add hs _ _ _
  | addParsedAtFront spec hs => exact h.graft_addAt hs _ _ _ 0
  | @addParsedResetting block s spec name hs =>
    exact (h.hideNamed block name).graft_add (s := s.hideAll (d.isNamed name))
      (by simp [Document.hideNamed, hs]) _ _ _
  | add spec hs => exact h.add hs spec
  | @addAt block _ spec index hs =>
    exact (h.graft_addAt hs .toBeAdded spec false index).alike (.markModified _ block)
  | @addBeforeAllOfKind block _ spec tag index hs =>
    exact (h.graft_addAt hs .toBeAdded spec false index).alike (.markModified _ block)
  | @remove block node =>
    refine alike (alike (h.rearrange (h.linked.modifyStore fun s hs ↦
      (h.linked.store block s hs).remove node) fun s _ x ↦ ?_) (.dropEdges _ node))
      (.markModified _ block)
    rw [Store.remove, Store.nodes_modifyEntry Entry.withdraw_node]
  | @removeNamed block s name =>
    have hrem : ListsOwned D ov (fun _ ↦ False)
        (d.modifyStore block (·.removeAll (d.isNamed name))) := by
      refine h.rearrange (h.linked.modifyStore fun s hs ↦
        (h.linked.store block s hs).removeAll _) fun s _ x ↦ ?_
      rw [Store.removeAll, Store.nodes_mapPicked Entry.withdraw_node]
    exact (hrem.alike (.foldl_dropEdges _ _)).alike (.markModified _ block)
  | hideNamed name => exact h.hideNamed _ name
  | replace spec hs he _ hn hp =>
    obtain ⟨hmem, rfl⟩ := Store.mem_of_find? he
    exact h.stageReplacement hs (Store.mem_nodes_of_mem hmem) hn hp spec
  | @moveTo block node s e n index =>
    exact (h.rearrange (h.linked.modifyStore fun s hs ↦
      (h.linked.store block s hs).moveTo node index) fun s _ x ↦
      (Store.nodes_moveTo index).mem_iff).alike (.markModified _ block)
  | setValue value hn hset => exact h.stageValue hn hset value
  | setLiteral block name value hn hset => exact h.stageValue hn hset value
  | addLiteral name value hs => exact h.add hs _

/-- The nodes of `l` may go together if every unlisted node goes, and no parent outside `D` that
stays lists one that goes. -/
theorem foldl_evict (h : ListsOwned D ov U d) (hroot : root ∉ l)
    (hU : ∀ x n, d.node? x = some n → U x → x ∈ l)
    (hcut : ∀ x ∈ l, ∀ n p s, d.node? x = some n → n.parent = some p → p ∉ l → ¬ D p →
      d.store? p = some s → x ∉ s.nodes)
    (hov : ∀ x ∈ ov', x ∈ ov) (hov' : ∀ x ∈ ov, d.isLive x → x ∉ l → x ∈ ov') :
    ListsOwned D ov' (fun _ ↦ False) (l.foldl evict d) := by
  have hl := h.linked.foldl_evict hroot
  obtain ⟨hnext, -, -, hsrc⟩ := foldl_evict_fields l d
  refine ⟨hl, fun y s' hs' hD x hx ↦ ?_, fun x n p s' hn hp hs' ↦ ?_, fun x n hn hp ↦ ?_,
    fun o ho ↦ ?_, fun q hq ↦ ?_⟩
  · have hy := hl.not_mem_of_store? hs'
    have hstore := h.linked.store?_evicted hy fun s hs x hx hxl ↦ by
      obtain ⟨n, hn⟩ := isLive_iff.mp (h.live y s hs hD x hx)
      exact ⟨n, hn, fun hp ↦ hcut x hxl n y s hn hp hy hD hs hx⟩
    rw [hstore] at hs'
    obtain ⟨s, hs, rfl⟩ := Option.map_eq_some_iff.mp hs'
    obtain ⟨e, he, rfl⟩ := List.mem_map.mp hx
    obtain ⟨he, hel⟩ := Store.mem_without.mp he
    rw [isLive, node?_foldl_evict, if_neg hel]
    exact h.live y s hs hD e.node (Store.mem_nodes_of_mem he)
  · obtain ⟨hx, hn⟩ := node?_of_foldl_evict hn
    obtain ⟨s, hs, -⟩ := store?_foldl_evict_sublist h.linked.distinct hs'
    have hmem := (h.listed x n p s hn hp hs).resolve_left fun hUx ↦ hx (hU x n hn hUx)
    obtain ⟨e, he, rfl⟩ := List.mem_map.mp hmem
    obtain ⟨s₁, hs₁, hkept⟩ :=
      mem_store?_foldl_evict hs (hl.not_mem_of_store? hs') h.linked.distinct
    rw [hs'] at hs₁
    cases hs₁
    exact .inr (Store.mem_nodes_of_mem (hkept e he hx))
  · obtain ⟨hx, hn⟩ := node?_of_foldl_evict hn
    exact (h.top x n hn hp).imp_right fun ho ↦ hov' x ho (isLive_iff.mpr ⟨n, hn⟩) hx
  · obtain ⟨hlt, hsome⟩ := h.roof o (hov o ho)
    refine ⟨hnext ▸ hlt, fun hlive ↦ ?_⟩
    obtain ⟨m, hm⟩ := isLive_iff.mp hlive
    obtain ⟨hol, hm⟩ := node?_of_foldl_evict hm
    obtain ⟨s, hs⟩ := Option.isSome_iff_exists.mp (hsome (isLive_iff.mpr ⟨m, hm⟩))
    obtain ⟨s₁, hs₁, -⟩ := mem_store?_foldl_evict hs hol h.linked.distinct
    rw [hs₁]
    rfl
  · obtain ⟨hlt, htop⟩ := h.source q (hsrc ▸ hq)
    exact ⟨hnext ▸ hlt, fun n hn ↦ htop n (node?_of_foldl_evict hn).2⟩

theorem purged (h : ListsOwned D ov U d) (b id : NodeId) (hU : ∀ x, U x → U' x)
    (hid : ∀ n, d.node? id = some n → n.parent = some b → U' id) :
    ListsOwned D ov U' (d.purge b id) := by
  refine h.modifyStore (h.linked.purge b id) (fun s hs ↦ ⟨fun x hx ↦ ?_, fun x m hm hpar hx ↦ ?_⟩)
    fun x _ _ _ hx ↦ hU x hx
  · exact .inl ((Store.nodes_purge_sublist s id).subset hx)
  · by_cases hx' : x = id
    · subst hx'
      exact .inl (hid m hm hpar)
    · refine hx.imp (hU x) fun hmem ↦ ?_
      obtain ⟨e, he, rfl⟩ := List.mem_map.mp hmem
      exact Store.mem_nodes_of_mem ((List.mem_eraseP_of_neg (by simpa using hx')).mpr he)

theorem purge (h : ListsOwned D ov U d) (hid : ∀ n, d.node? id = some n → n.parent ≠ some b) :
    ListsOwned D ov U (d.purge b id) :=
  h.purged b id (fun _ hU ↦ hU) fun n hn hp ↦ absurd hp (hid n hn)

theorem unlist (h : ListsOwned D ov (fun _ ↦ False) d) (b id : NodeId) :
    ListsOwned D ov (· = id) (d.purge b id) :=
  h.purged b id (fun _ ↦ False.elim) fun _ _ _ ↦ rfl

/-- A node may go with what it owns when its own block has purged it or lies in `D`. -/
theorem drop (h : ListsOwned D ov (fun _ ↦ False) d) (hid : id ≠ root)
    (hD : ∀ n p, d.node? id = some n → n.parent = some p → p = b ∨ D p) :
    ListsOwned D ov (fun _ ↦ False) ((d.purge b id).release id) := by
  have hl : Linked (d.purge b id) := h.linked.purge b id
  refine (h.unlist b id).foldl_evict (hl.root_not_mem_ownedSubtree hid) (fun x m hm hx ↦ ?_)
    (fun x hx m p s hm hpar hpl hpD hs ↦ ?_) (fun _ ho ↦ ho) fun _ ho _ _ ↦ ho
  · subst hx
    exact self_mem_ownedSubtree (isLive_iff.mpr ⟨m, hm⟩)
  · by_cases hxid : x = id
    · subst hxid
      obtain rfl := (hD m p hm hpar).resolve_right hpD
      exact unlisted_purge h.linked p x s hs
    · exact absurd (ownedSubtree_parent hx hxid hm hpar) hpl

theorem settleNodes (h : ListsOwned D ov U d) : ListsOwned D ov U d.settleNodes := by
  refine h.congr_nodes h.linked.settleNodes (fun x ↦ ?_) (fun _ ↦ rfl) (Table.size_map ..)
    h.source
  simp only [Document.settleNodes, Document.node?, Table.get?_map, Option.map_map]
  rfl

theorem resetStores (h : ListsOwned D ov (fun _ ↦ False) d) :
    ListsOwned D ov d.StagedChild d.resetStores := by
  obtain ⟨hn, -, -, hsrc⟩ := foldl_modifyStore_fields d.stores.ids Store.reset d
  refine h.congr_stores h.linked.resetStores hn hsrc fun b s' hs' ↦ ?_
  rw [store?_resetStores] at hs'
  obtain ⟨s, hs, rfl⟩ := Option.map_eq_some_iff.mp hs'
  refine ⟨s, hs, fun x hx ↦ .inl ?_, fun x n hn hp hx ↦ ?_⟩
  · obtain ⟨l, hperm, hsub⟩ := s.nodes_reset
    exact hsub.subset (hperm.mem_iff.mp hx)
  · exact stagedChild_or_mem_reset hn hp hs (hx.resolve_left not_false)

theorem reset (h : ListsOwned D ov (fun _ ↦ False) d) :
    ListsOwned D ov (fun _ ↦ False) d.reset := by
  obtain ⟨l, he, hdet, -⟩ := Detached.reset h.linked
  rw [reset_eq, he]
  exact (h.resetStores.foldl_evict hdet.root hdet.unlisted
    (fun x hx n p s hn hp hpl _ ↦ hdet.cut x hx n p s hn hp hpl) (fun _ ho ↦ ho)
    fun _ ho _ _ ↦ ho).settleNodes

theorem of_tables (h : ListsOwned D ov U d) (hl : Linked d') (hn : d'.nodes = d.nodes)
    (hs : d'.stores = d.stores) (hsrc : ∀ q ∈ d'.overlaySources, q.2 < d.nextId ∧
      ∀ n, d.node? q.2 = some n → n.parent = none) : ListsOwned D ov U d' :=
  h.congr_nodes hl (fun x ↦ by simp only [Document.node?, hn])
    (fun i ↦ by simp only [Document.store?, hs]) (by simp only [Document.nextId, hn]) hsrc

theorem supersede (h : ListsOwned D d.overlays (fun _ ↦ False) d) (source : DocumentId) :
    ListsOwned D (d.supersede source).2.overlays (fun _ ↦ False) (d.supersede source).2 := by
  unfold Document.supersede
  split
  · exact h
  · next o hlookup =>
    obtain ⟨l₁, l₂, hsources, -⟩ := List.lookup_eq_some_iff.mp hlookup
    have hmem : (source, o) ∈ d.overlaySources := by simp [hsources]
    dsimp only
    generalize hg : ({ d with
      overlaySources := d.overlaySources.filter (·.1 != source)
      overlays := d.overlays.filter (· != o) } : Document) = g
    have hforget : ListsOwned D d.overlays (fun _ ↦ False) g := by
      subst hg
      exact h.of_tables (h.linked.of_tables rfl rfl fun p hp ↦
        h.linked.sources p (List.mem_filter.mp hp).1) rfl rfl fun q hq ↦
        h.source q (List.mem_filter.mp hq).1
    obtain ⟨-, -, hov, -⟩ := foldl_evict_fields (g.ownedSubtree o) g
    have htop : ∀ n, g.node? o = some n → n.parent = none := by
      subst hg
      exact (h.source _ hmem).2
    rw [Document.release, hov]
    have htree : Detached (fun _ ↦ False) g (g.ownedSubtree o) :=
      .tree hforget.linked (h.linked.sources _ hmem) htop
    refine hforget.foldl_evict htree.root htree.unlisted
      (fun x hx n p s hn hp hpl _ ↦ htree.cut x hx n p s hn hp hpl) (fun x hx ↦ ?_)
      fun x hx hlive hxl ↦ ?_
    · subst hg
      exact (List.mem_filter.mp hx).1
    · have hne : x ≠ o := by
        rintro rfl
        exact hxl (self_mem_ownedSubtree hlive)
      subst hg
      exact List.mem_filter.mpr ⟨hx, by simpa using hne⟩

theorem enroll (h : ListsOwned D ov (fun _ ↦ False) d) (hs : d.store? b = some s)
    (hp : n.parent = some b) (hh : n.holders = []) (hpending : n.pending = none) :
    ListsOwned D ov (fun _ ↦ False) (d.enroll b n) := by
  have hlinked : Linked (d.push n) := by
    refine h.linked.push (fun p hpar ↦ ?_) hh hpending
    rw [hp] at hpar
    cases hpar
    exact h.linked.lt_of_store? hs
  have hpush : ListsOwned D ov (· = d.nextId) (d.push n) := by
    exact h.push hlinked (fun _ ↦ False.elim) (by simp [hp]) (by simp [hp]) fun _ ↦ rfl
  refine (hpush.list (by rw [node?_push, if_pos rfl]) hp (h.linked.enroll hs hp hh hpending)
    fun s _ ↦ ?_).mono_unlisted fun x hU ↦ hU.2 hU.1
  rw [Store.nodes_add]
  exact List.perm_append_singleton _ _

theorem lend (h : ListsOwned D ov U d) (hl : Linked (d.lend b x)) (hn : d.node? x = some n)
    (hset : Linked (d.modifyNode x fun m ↦ { m with holders := m.holders ++ [b] })) :
    ListsOwned D ov U (d.lend b x) := by
  have hhold := h.modifyNode hset fun _ ↦ rfl
  refine hhold.modifyStore (f := (·.add x .applied false)) hl (fun s _ ↦ ⟨fun y hy ↦ ?_,
    fun y _ _ _ hy ↦ hy.imp_right fun hmem ↦ ?_⟩) fun _ _ _ _ hU ↦ hU
  · rw [Store.nodes_add] at hy
    rcases List.mem_append.mp hy with hy | hy
    · exact .inl hy
    · rw [List.mem_singleton.mp hy]
      exact .inr (by simp [isLive, hn])
  · rw [Store.nodes_add]
    exact List.mem_append_left _ hmem

theorem merge (h : ListsOwned D d.overlays (fun _ ↦ False) d) (other : Document) :
    ListsOwned D (d.merge other).2.overlays (fun _ ↦ False) (d.merge other).2 := by
  have hsup := h.supersede other.id
  have hpush : ListsOwned D ((d.supersede other.id).2.overlays ++ [d.overlayId other])
      (fun _ ↦ False) ((d.supersede other.id).2.push overlayNode) :=
    hsup.push (hsup.linked.push (by simp [overlayNode]) rfl rfl) (fun _ hU ↦ hU)
      (fun o ↦ by simp [overlayNode, overlayId]) (fun _ ↦ rfl) (by simp [overlayNode])
  refine (merge_induction
    (C := fun d' ↦ ListsOwned D ((d.supersede other.id).2.overlays ++ [d.overlayId other])
      (fun _ ↦ False) d' ∧ d'.overlays = (d.supersede other.id).2.overlays)
    (M := fun d' ↦ ListsOwned D d'.overlays (fun _ ↦ False) d')
    h.linked other ⟨hpush, rfl⟩ (fun d' target n s hd _ hQ _ hs ↦ ?_)
    (fun d' hd hf hQ ↦ ?_) ?_ ?_).2
  · exact ⟨hQ.1.enroll hs rfl rfl rfl, hQ.2⟩
  · have ha : Alike d' (d'.recordEdges (d.overlayId other)) := .recordEdges _ _
    have hrec := hQ.1.alike ha
    obtain ⟨n, hn, hp⟩ := (hf.alike ha).top
    have hov : ((d'.recordEdges (d.overlayId other)).announce other.id
        (d.overlayId other)).overlays =
        (d.supersede other.id).2.overlays ++ [d.overlayId other] := by
      rw [Document.announce, ha.overlays, hQ.2]
    rw [hov]
    refine hrec.of_tables (hrec.linked.announce other.id ?_) rfl rfl fun q hq ↦ ?_
    · obtain ⟨m, hm, -⟩ := hsup.linked.root
      exact (Nat.ne_of_lt (lt_nextId hm)).symm
    · rcases List.mem_append.mp hq with hq | hq
      · exact hrec.source q hq
      · rw [List.mem_singleton.mp hq]
        refine ⟨lt_nextId hn, fun m hm ↦ ?_⟩
        rw [hn] at hm
        cases hm
        exact hp
  · rintro d' b t n p hd hQ - hn hh hp hne - -
    exact hQ.lend (hd.lend hn hp hne hh) hn (hd.addHolder hn hp hne hh)
  · rintro d' b name kind hd hQ hs
    obtain ⟨s, hs⟩ := Option.isSome_iff_exists.mp hs
    exact hQ.enroll hs rfl rfl rfl

end ListsOwned

end BuildScript.Document
