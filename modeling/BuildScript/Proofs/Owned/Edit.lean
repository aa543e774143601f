import BuildScript.Proofs.Owned.Apply

namespace BuildScript

namespace Edit

def block? : Edit → Option NodeId
  | addParsed block _ | addParsedAtFront block _ | addParsedResetting block _ _ | add block _
  | addAt block _ _ | addBeforeAllOfKind block _ _ | remove block _ | removeNamed block _
  | hideNamed block _ | replace block _ _ | moveTo block _ _ => some block
  | setValue .. | setNewLiteral .. => none

def isProper : Edit → Bool
  | addParsed _ spec | addParsedAtFront _ spec | addParsedResetting _ spec _ | add _ spec
  | addAt _ spec _ | addBeforeAllOfKind _ spec _ | replace _ _ spec => spec.isProper
  | remove .. | removeNamed .. | hideNamed .. | moveTo .. | setValue .. | setNewLiteral .. => true

end Edit

namespace Document

def InMainTree (d : Document) (edit : Edit) : Prop := ∀ b ∈ edit.block?, root ∈ d.lineage b

instance (d : Document) (edit : Edit) : Decidable (InMainTree d edit) :=
  inferInstanceAs (Decidable (∀ b ∈ edit.block?, root ∈ d.lineage b))

variable {full : Prop} {ov : List NodeId} {U : NodeId → Prop} {d d' : Document}
  {b i o p x y : NodeId} {n : Node} {e : Entry} {s : Store} {state : EntryState}

theorem EntryFits.fresh (hn : d.node? x = some n) (hp : n.parent = some b)
    (ha : state ≠ .applied) (hr : state ≠ .toBeRemoved) (existsInSource : Bool) :
    EntryFits ov d b (.fresh x state existsInSource) where
  owner := ⟨n, hn, by simp [hp, Entry.fresh, ha]⟩
  restore := by simp [Entry.fresh]
  staged _ := ha
  calm hs := absurd hs hr

theorem EntryFits.withdraw (h : EntryFits ov d b e) (ha : e.state ≠ .applied)
    (hb : ∀ o ∈ ov, ¬ Below d o b) : EntryFits ov d b e.withdraw := by
  unfold Entry.withdraw
  split
  · exact h
  · exact h.change rfl (by simp [ha]) (by simpa using ha) (fun hs ↦ hs) fun _ ↦ .inr hb

theorem EntryFits.relocated (h : EntryFits ov d b e) (hp : e.isPlaceable) :
    EntryFits ov d b (Store.relocated e) := by
  have ha : e.state ≠ .applied := fun ha ↦ by
    simp [Entry.isPlaceable, ha, EntryState.isPlaceable] at hp
  unfold Store.relocated
  split
  · exact h
  · exact h.change rfl (by simp [ha]) h.restore (fun hs ↦ hs) (by simp)

namespace Owned

theorem pushOver {ov' : List NodeId} {U' : NodeId → Prop} (h : Owned full ov U d)
    (hl : Linked (d.push n)) (hh : n.holders = []) (hU : ∀ x, U x → U' x)
    (hov : ∀ o, o ∈ ov' ↔ o ∈ ov ∨ (o = d.nextId ∧ n.parent = none))
    (htop : n.parent = none → d.nextId ≠ root ∧ n.isContainer)
    (hchild : ∀ p, n.parent = some p →
      U' d.nextId ∧ (NeedsContainer full ov d p → (d.store? p).isSome)) :
    Owned full ov' U' (d.push n) := by
  have hext : Extends d.nextId d (d.push n) := .push h.linked n _
  have hself : (d.push n).node? d.nextId = some n := by rw [node?_push, if_pos rfl]
  have hback : ∀ o ∈ ov', ∀ x, x < d.nextId → Below (d.push n) o x → o ∈ ov ∧ Below d o x := by
    intro o ho x hx hb
    rcases (hov o).mp ho with ho | ⟨rfl, -⟩
    · exact ⟨ho, (hext.below h.linked hx).mp hb⟩
    · exact absurd (hb.le hl.older) (Nat.not_le.mpr hx)
  refine ⟨hl, fun b s e hs he ↦ ?_, fun o ho ↦ ?_, fun x m hm hpar ↦ ?_, fun x m hm hhold ↦ ?_,
    fun x m q s hm hpar hs ↦ ?_, fun x m q hm hpar hr ↦ ?_, fun q hq ↦ ?_⟩
  · have hs₀ := store?_of_mem_push h.linked.sizes hs he
    have hfits := h.entry b s e hs₀ he
    refine ⟨?_, hfits.restore, hfits.staged, fun hst o ho hbel ↦ ?_⟩
    · obtain ⟨m, hm, hiff⟩ := hfits.owner
      exact ⟨m, (hext.node _ (lt_nextId hm)).trans hm, hiff⟩
    · obtain ⟨ho, hbel⟩ := hback o ho b (h.linked.lt_of_store? hs₀) hbel
      exact hfits.calm hst o ho hbel
  · rcases (hov o).mp ho with ho | ⟨rfl, hp⟩
    · obtain ⟨hroot, m, hm, hrest⟩ := h.overlay o ho
      exact ⟨hroot, m, (hext.node _ (lt_nextId hm)).trans hm, hrest⟩
    · exact ⟨(htop hp).1, n, hself, hp, (htop hp).2⟩
  · rcases node?_of_push hm with ⟨rfl, rfl⟩ | hm
    · exact .inr ((hov _).mpr (.inr ⟨rfl, hpar⟩))
    · exact (h.top x m hm hpar).imp_right fun ho ↦ (hov x).mpr (.inl ho)
  · rcases node?_of_push hm with ⟨-, rfl⟩ | hm
    · exact absurd hh hhold
    · obtain ⟨o, ho, hb⟩ := h.held x m hm hhold
      exact ⟨o, (hov o).mpr (.inl ho), (hext.below h.linked (lt_nextId hm)).mpr hb⟩
  · rcases node?_of_push hm with ⟨rfl, rfl⟩ | hm
    · exact .inl (hchild q hpar).1
    · have hq := Nat.lt_trans (h.linked.older x m q hm hpar) (lt_nextId hm)
      rw [hext.store q hq (Nat.ne_of_lt hq)] at hs
      exact (h.listed x m q s hm hpar hs).imp_left (hU x)
  · have hq : q < d.nextId ∧ (NeedsContainer full ov d q → (d.store? q).isSome) := by
      rcases node?_of_push hm with ⟨-, rfl⟩ | hm
      · exact ⟨hl.older _ m q hself hpar, (hchild q hpar).2⟩
      · exact ⟨Nat.lt_trans (h.linked.older x m q hm hpar) (lt_nextId hm),
          h.listsOwned x m q hm hpar⟩
    rw [hext.store q hq.1 (Nat.ne_of_lt hq.1)]
    refine hq.2 (hr.imp_right ?_)
    rintro ⟨o, ho, hb⟩
    exact ⟨o, hback o ho q hq.1 hb⟩
  · refine (h.sources q hq).imp (fun ho ↦ (hov _).mpr (.inl ho)) fun hdead ↦
      ⟨Nat.lt_of_lt_of_le hdead.1 hext.next, ?_⟩
    exact (hext.node _ hdead.1).trans hdead.2

theorem push (h : Owned full ov U d) (hl : Linked (d.push n)) (hp : n.parent = some p)
    (hh : n.holders = []) (hroof : NeedsContainer full ov d p → (d.store? p).isSome) :
    Owned full ov (fun x ↦ U x ∨ x = d.nextId) (d.push n) := by
  refine h.pushOver hl hh (fun _ ↦ .inl) (fun o ↦ by simp [hp]) (by simp [hp]) fun q hq ↦ ?_
  rw [hp] at hq
  cases hq
  exact ⟨.inr rfl, hroof⟩

theorem mono {U' : NodeId → Prop} (h : Owned full ov U d) (hU : ∀ x, U x → U' x) :
    Owned full ov U' d :=
  ⟨h.linked, h.entry, h.overlay, h.top, h.held,
    fun x n p s hn hp hs ↦ (h.listed x n p s hn hp hs).imp_left (hU x), h.listsOwned, h.sources⟩

theorem list (h : Owned full ov U d) (hp : ∀ n, d.node? x = some n → n.parent = some b)
    {f : Store → Store} (hl : Linked (d.modifyStore b f))
    (hf : ∀ s, d.store? b = some s → (∀ e ∈ (f s).entries, EntryFits ov d b e) ∧
      ∀ y, y = x ∨ y ∈ s.nodes → y ∈ (f s).nodes) :
    Owned full ov (fun y ↦ U y ∧ y ≠ x) (d.modifyStore b f) := by
  refine h.modifyStore hl (fun s hs ↦ ⟨(hf s hs).1, fun y m hm hpar hy ↦ ?_⟩)
    fun y m hm hpar hU ↦ ⟨hU, ?_⟩
  · by_cases hyx : y = x
    · exact .inr ((hf s hs).2 y (.inl hyx))
    · exact hy.imp (fun hU ↦ ⟨hU, hyx⟩) fun hmem ↦ (hf s hs).2 y (.inr hmem)
  · rintro rfl
    exact hpar (hp m hm)

end Owned

theorem Owned.alloc {U : NodeId → Prop} (h : Owned full ov U d) (hp : parent < d.nextId)
    (ha : state ≠ .applied) (hr : state ≠ .toBeRemoved)
    (hroof : NeedsContainer full ov d parent → (d.store? parent).isSome) (spec : Spec)
    (hspec : NeedsContainer full ov d parent → spec.isProper) :
    Owned full ov (fun x ↦ U x ∨ x = d.nextId) (d.alloc parent state spec) := by
  refine ((Linked.alloc_induction state
    (M := fun d parent spec d' ↦ (NeedsContainer full ov d parent → (d.store? parent).isSome) →
      (NeedsContainer full ov d parent → spec.isProper) → ∀ U, Owned full ov U d →
      Owned full ov (fun x ↦ U x ∨ x = d.nextId) d')
    (N := fun d parent specs d' ↦ (NeedsContainer full ov d parent → Spec.areProper specs) →
      (specs ≠ [] → NeedsContainer full ov d parent → (d.store? parent).isSome) →
      ∀ U, Owned full ov U d → Owned full ov U d')
    (fun d parent spec d' _ hp hlink _ ih hroof hspec U h ↦ ?_) (fun _ _ _ _ _ _ h ↦ h)
    (fun d parent spec rest d' d'' hd hp hnum _ ih ih' hspecs hstore U h ↦ ?_) h.linked
      hp).1 spec).2
    hroof hspec U h
  · have hself : (d.push (headNode parent state spec)).node? d.nextId =
        some (headNode parent state spec) := by rw [node?_push, if_pos rfl]
    have hup : NeedsContainer full ov (d.push (headNode parent state spec)) d.nextId →
        NeedsContainer full ov d parent := by
      refine Or.imp_right ?_
      rintro ⟨o, ho, hb⟩
      refine ⟨o, ho, ?_⟩
      rcases hb.eq_or_parent hself rfl with he | hb
      · obtain ⟨-, m, hm, -⟩ := h.overlay o ho
        exact absurd (lt_nextId hm) (he ▸ Nat.lt_irrefl _)
      · exact ((Extends.push h.linked _ d.nextId).below h.linked hp).mp hb
    have hproper := fun hro ↦ Bool.and_eq_true_iff.mp (Spec.isProper_eq spec ▸ hspec (hup hro))
    refine ih (fun hro ↦ (hproper hro).2) (fun hne hro ↦ ?_) _ (h.push hlink rfl rfl hroof)
    have hc : spec.kind.isContainer = true := by simpa [hne] using (hproper hro).1
    rw [hlink.keyed, hself, Option.any_some]
    exact hc
  · have hroof := hstore (by simp)
    have halloc := ih hroof (fun hro ↦ (Bool.and_eq_true_iff.mp (hspecs hro)).1) U h
    have hparent : ∀ n, d'.node? d.nextId = some n → n.parent = some parent := by
      intro n hn
      rw [hnum.top] at hn
      cases hn
      rfl
    have hback : NeedsContainer full ov (listTree d d' parent state spec) parent →
        NeedsContainer full ov d parent := Or.imp_right fun ⟨o, ho, hb⟩ ↦
      ⟨o, ho, (hnum.old.below hd hp).mp (below_modifyStore.mp hb)⟩
    have hlisted := halloc.list hparent (hnum.listTree hd hp) fun s hs ↦
      ⟨fun e he ↦ ?_, fun y hy ↦ ?_⟩
    · refine ih' (fun hro ↦ (Bool.and_eq_true_iff.mp (hspecs (hback hro))).2) (fun _ hro ↦ ?_) U
        (hlisted.mono fun x hU ↦ hU.1.resolve_right hU.2)
      rw [listTree, store?_modifyStore, if_pos rfl, Option.isSome_map,
        hnum.old.store parent hp (Nat.ne_of_lt hp)]
      exact hroof (hback hro)
    · rcases Store.mem_add he with he | rfl
      · exact halloc.entry parent s e hs he
      · exact .fresh hnum.top rfl ha hr _
    · rw [Store.nodes_add]
      rcases hy with rfl | hy
      · exact List.mem_append_right _ (by simp)
      · exact List.mem_append_left _ hy

namespace Owned

theorem graft (h : Owned full ov (fun _ ↦ False) d) (hs : d.store? b = some s)
    (ha : state ≠ .applied) (hr : state ≠ .toBeRemoved) {spec : Spec}
    (hspec : NeedsContainer full ov d b → spec.isProper) {list : NodeId → Store → Store}
    (hl : Linked (d.graft b state spec list))
    (hentry : ∀ e ∈ (list d.nextId s).entries, e ∈ s.entries ∨
      ∃ existsInSource, e = .fresh d.nextId state existsInSource)
    (hnodes : (list d.nextId s).nodes.Perm (d.nextId :: s.nodes)) :
    Owned full ov (fun _ ↦ False) (d.graft b state spec list) := by
  have hlt := h.linked.lt_of_store? hs
  obtain ⟨-, hext, hnode⟩ := h.linked.alloc hlt state spec
  have halloc := h.alloc hlt ha hr (fun _ ↦ by simp [hs]) spec hspec
  have hs' : (d.alloc b state spec).store? b = some s :=
    (hext.store b hlt (Nat.ne_of_lt hlt)).trans hs
  have hparent : ∀ n, (d.alloc b state spec).node? d.nextId = some n → n.parent = some b := by
    intro n hn
    rw [hnode] at hn
    cases hn
    rfl
  have hlisted := halloc.list hparent (hl.alike (Alike.recordEdges _ _).symm)
    fun s₁ hs₁ ↦ ⟨fun e he ↦ ?_, fun y hy ↦ ?_⟩
  · have hmono : Owned full ov (fun _ ↦ False) _ := hlisted.mono fun x hU ↦
      hU.2 (hU.1.resolve_left not_false)
    exact hmono.alike (.recordEdges _ _)
  · rw [hs'] at hs₁
    cases hs₁
    rcases hentry e he with he | ⟨existsInSource, rfl⟩
    · exact halloc.entry b s e hs' he
    · exact .fresh hnode rfl ha hr existsInSource
  · rw [hs'] at hs₁
    cases hs₁
    exact hnodes.mem_iff.mpr (List.mem_cons.mpr hy)

theorem graft_add (h : Owned full ov (fun _ ↦ False) d) (hs : d.store? b = some s)
    (ha : state ≠ .applied) (hr : state ≠ .toBeRemoved) {spec : Spec}
    (hspec : NeedsContainer full ov d b → spec.isProper) (existsInSource : Bool) :
    Owned full ov (fun _ ↦ False)
      (d.graft b state spec fun id s ↦ s.add id state existsInSource) := by
  refine h.graft hs ha hr hspec (h.linked.graft_add hs state spec existsInSource) (fun e he ↦ ?_) ?_
  · exact (Store.mem_add he).imp_right fun he ↦ ⟨existsInSource, he⟩
  · rw [Store.nodes_add]
    exact List.perm_append_singleton _ _

theorem graft_addAt (h : Owned full ov (fun _ ↦ False) d) (hs : d.store? b = some s)
    (ha : state ≠ .applied) (hr : state ≠ .toBeRemoved) {spec : Spec}
    (hspec : NeedsContainer full ov d b → spec.isProper) (existsInSource : Bool) (index : Int) :
    Owned full ov (fun _ ↦ False)
      (d.graft b state spec fun id s ↦ s.addAt id state existsInSource index) :=
  h.graft hs ha hr hspec (h.linked.graft_addAt hs state spec existsInSource index)
    (fun _ he ↦ (Store.mem_addAt he).imp_right fun he ↦ ⟨existsInSource, he⟩)
    (Store.nodes_addAt _ _ _)

theorem placeNew (h : Owned full ov U d) (block node : NodeId) :
    Owned full ov U (d.placeNew block node) := by
  have hl := h.linked.placeNew block node
  rcases d.placeNew_cases block node with ha | ⟨s, target, hs, ht, he⟩
  · exact h.alike ha
  · rw [he] at hl ⊢
    refine h.modifyStore_of_subset hl fun s' hs' ↦ ?_
    rw [hs] at hs'
    cases hs'
    have hkeep := Store.realizeOrder_induction (s := s) s.placeable
      (P := fun s' ↦ s'.nodes.Nodup ∧ (∀ e ∈ s'.entries, EntryFits ov d block e) ∧
        ∀ x ∈ s.nodes, x ∈ s'.nodes)
      (fun s' node index hP hplace ↦ ?_) ht
      ⟨(h.linked.store block s hs).nodup, fun e he ↦ h.entry block s e hs he, fun _ hx ↦ hx⟩
    · exact hkeep.2
    · obtain ⟨hnodup, hfits, hsub⟩ := hP
      refine ⟨(Store.nodes_moveTo index).nodup_iff.mpr hnodup, fun e he ↦ ?_, fun x hx ↦ ?_⟩
      · rcases Store.mem_moveTo he with he | ⟨e₀, he₀, rfl, rfl⟩
        · exact hfits e he
        · obtain ⟨e₁, he₁, hp₁, hn₁⟩ := Store.mem_placeable.mp hplace
          obtain rfl := Store.eq_of_node_eq hnodup he₁ he₀ hn₁
          exact (hfits _ he₁).relocated hp₁
      · exact (Store.nodes_moveTo index).mem_iff.mpr (hsub x hx)

theorem add (h : Owned full ov (fun _ ↦ False) d) (hs : d.store? b = some s) {spec : Spec}
    (hspec : NeedsContainer full ov d b → spec.isProper) : Owned full ov (fun _ ↦ False)
      ((d.stage b spec fun id s ↦ s.add id .toBeAdded false).placeNew b d.nextId) :=
  ((h.graft_add hs (by simp) (by simp) hspec false).alike (.markModified _ b)).placeNew b d.nextId

theorem addAt (h : Owned full ov (fun _ ↦ False) d) (hs : d.store? b = some s) {spec : Spec}
    (hspec : NeedsContainer full ov d b → spec.isProper) (index : Int) :
    Owned full ov (fun _ ↦ False) (d.stage b spec fun id s ↦ s.addAt id .toBeAdded false index) :=
  (h.graft_addAt hs (by simp) (by simp) hspec false index).alike (.markModified _ b)

theorem mapPicked (h : Owned full ov U d) {f : Store → Store} {q : NodeId → Bool}
    {g : Entry → Entry} (hl : Linked (d.modifyStore b f)) (hf : ∀ s, f s = s.mapPicked q g)
    (hnode : ∀ e, (g e).node = e.node)
    (hg : ∀ e, EntryFits ov d b e → e.isPlaceable → EntryFits ov d b (g e)) :
    Owned full ov U (d.modifyStore b f) := by
  refine h.modifyStore_of_subset hl fun s hs ↦ ⟨fun e he ↦ ?_, fun x hx ↦ ?_⟩
  · rw [hf] at he
    rcases Store.mem_mapPicked he with he | ⟨e₀, he₀, hp, -, rfl⟩
    · exact h.entry b s e hs he
    · exact hg e₀ (h.entry b s e₀ hs he₀) hp
  · rwa [hf, Store.nodes_mapPicked hnode]

theorem hideNamed (h : Owned full ov U d) (b : NodeId) (name : String) :
    Owned full ov U (d.hideNamed b name) := by
  refine h.mapPicked (g := fun e ↦ { e with state := .hidden }) (h.linked.hideNamed b name)
    (fun _ ↦ rfl) (fun _ ↦ rfl) fun e he hp ↦ ?_
  have ha : e.state ≠ .applied := fun ha ↦ by
    simp [Entry.isPlaceable, ha, EntryState.isPlaceable] at hp
  exact he.change rfl (by simp [ha]) he.restore (fun hs ↦ hs) (by simp)

theorem remove (h : Owned full ov U d) {node : NodeId} (hs : d.store? b = some s)
    (he : s.find? node = some e) (ha : e.state ≠ .applied) (hb : ∀ o ∈ ov, ¬ Below d o b) :
    Owned full ov U (d.modifyStore b (·.remove node)) := by
  refine h.modifyStore_of_subset
    (h.linked.modifyStore fun s hs ↦ (h.linked.store b s hs).remove node)
    fun s' hs' ↦ ⟨fun e' he' ↦ ?_, fun x hx ↦ ?_⟩
  · rw [hs] at hs'
    cases hs'
    rcases Store.mem_modifyFirst he' with he' | ⟨e₀, he₀, hn₀, rfl⟩
    · exact h.entry b s e' hs he'
    · obtain rfl := Store.eq_of_find? (h.linked.store b s hs).nodup he he₀ hn₀
      exact (h.entry b s _ hs he₀).withdraw ha hb
  · rwa [Store.remove, Store.nodes_modifyEntry Entry.withdraw_node]

/-- The main tree has nothing that another block could borrow. -/
theorem stageReplacement (h : Owned full ov (fun _ ↦ False) d) {old : NodeId}
    (hs : d.store? b = some s) (he : s.find? old = some e) (ha : e.state ≠ .applied)
    (hn : d.node? old = some n) (hp : n.parent = some b) (hb : ∀ o ∈ ov, ¬ Below d o b)
    {spec : Spec} (hspec : NeedsContainer full ov d b → spec.isProper) :
    Owned full ov (fun _ ↦ False) (d.stageReplacement b old spec) := by
  have hh := h.holders_eq_nil hn (h.not_below_of_parent hn hp hb)
  have hlt := h.linked.lt_of_store? hs
  obtain ⟨-, hext, hnode⟩ := h.linked.alloc hlt .toBeAdded spec
  have hl := h.linked.stageReplacement hs hn hp spec
  have halike := alike_stageReplacement h.linked hs hn spec
  refine alike ?_ halike
  have hsucc : Owned full ov (fun x ↦ False ∨ x = d.nextId) (d.withSuccessor b n spec) := by
    refine (h.alloc hlt (by simp) (by simp) (fun _ ↦ by simp [hs]) spec hspec).modifyNode
      (h.linked.withSuccessor hs hn hp spec) fun m hm ↦ ?_
    rw [hnode] at hm
    cases hm
    simp [place, post, headNode, hh, Node.isContainer]
  have hl' : Linked (d.replaced b old n spec) := hl.alike halike.symm
  have hs' : (d.withSuccessor b n spec).store? b = some s :=
    (hext.store b hlt (Nat.ne_of_lt hlt)).trans hs
  have hnode' : (d.withSuccessor b n spec).node? d.nextId =
      some { headNode b .toBeAdded spec with holders := n.holders } := by
    rw [withSuccessor, node?_modifyNode, if_pos rfl, hnode]
    rfl
  have hb' : ∀ o ∈ ov, ¬ Below (d.withSuccessor b n spec) o b := by
    intro o ho hbel
    exact hb o ho ((hext.below h.linked hlt).mp (below_of_below_modifyNode
      (f := fun m ↦ { m with holders := n.holders }) (fun _ ↦ rfl) hbel))
  rw [replaced, hh] at hl' ⊢
  have hlisted := hsucc.list (x := d.nextId) (b := b) (f := (·.replace old d.nextId))
    (fun m hm ↦ by
      rw [hnode'] at hm
      cases hm
      rfl) hl' fun s₁ hs₁ ↦ ⟨fun e' he' ↦ ?_, fun y hy ↦ ?_⟩
  · exact hlisted.mono fun x hU ↦ hU.2 (hU.1.resolve_left not_false)
  · rw [hs'] at hs₁
    cases hs₁
    rcases Store.mem_replaceFirst he' with he' | ⟨e₀, he₀, hn₀, hcase⟩
    · exact hsucc.entry b s e' hs' he'
    · obtain rfl := Store.eq_of_find? (h.linked.store b s hs).nodup he he₀ hn₀
      rcases hcase with rfl | rfl
      · exact (hsucc.entry b s _ hs' he₀).withdraw ha hb'
      · have hstate : Store.replacementState e₀.state ≠ .applied ∧
            Store.replacementState e₀.state ≠ .toBeRemoved := by
          cases hst : e₀.state <;> simp_all [Store.replacementState]
        exact ⟨⟨_, hnode', by simp [headNode, Store.replacement, Entry.fresh, hstate.1]⟩,
          by simp [Store.replacement, Entry.fresh], fun _ ↦ hstate.1,
          fun hst ↦ absurd hst hstate.2⟩
  · rw [hs'] at hs₁
    cases hs₁
    obtain ⟨hmem, rfl⟩ := Store.mem_of_find? he
    exact (Store.nodes_replace (Store.mem_nodes_of_mem hmem)).mem_iff.mpr (List.mem_cons.mpr hy)

theorem stageValue (h : Owned full ov U d) {node : NodeId} (hn : d.node? node = some n)
    (hset : n.isSettable) (value : Value) : Owned full ov U (d.stageValue node value) := by
  have hl := h.linked.stageValue hn hset value
  have hpending : Owned full ov U (d.modifyNode node fun n ↦ { n with pending := some value }) :=
    h.modifyNode ((hl.alike (Alike.markModified _ node).symm).alike (Alike.recordEdges _ node).symm)
      fun _ _ ↦ rfl
  exact (hpending.alike (.recordEdges _ node)).alike (.markModified _ node)

theorem edit (h : Owned full ov (fun _ ↦ False) d) {edit : Edit} (hmain : InMainTree d edit)
    (hproper : full → edit.isProper) : Owned full ov (fun _ ↦ False) (edit.run d).2 := by
  have hblock : ∀ b ∈ edit.block?, ∀ o ∈ ov, ¬ Below d o b := fun b hb ↦
    h.not_below_of_main ((mem_lineage h.linked.older).mp (hmain b hb)).2.2
  have hspec : ∀ b ∈ edit.block?, NeedsContainer full ov d b → edit.isProper := by
    rintro b hb (hf | ⟨o, ho, hob⟩)
    · exact hproper hf
    · exact absurd hob (hblock b hb o ho)
  have hedited := edit.edited d
  generalize (edit.run d).2 = d' at hedited
  cases hedited with
  | unchanged => exact h
  | addParsed spec hs => exact h.graft_add hs (by simp) (by simp) (hspec _ rfl) _
  | addParsedAtFront spec hs => exact h.graft_addAt hs (by simp) (by simp) (hspec _ rfl) _ 0
  | @addParsedResetting block s spec name hs =>
    have hhide := h.hideNamed block name
    refine hhide.graft_add (s := s.hideAll (d.isNamed name)) (by simp [Document.hideNamed, hs])
      (by simp) (by simp) (fun hro ↦ hspec _ rfl (hro.imp_right ?_)) _
    rintro ⟨o, ho, hb⟩
    exact ⟨o, ho, below_modifyStore.mp hb⟩
  | add spec hs => exact h.add hs (hspec _ rfl)
  | addAt spec index hs => exact h.addAt hs (hspec _ rfl) index
  | addBeforeAllOfKind spec tag index hs => exact h.addAt hs (hspec _ rfl) index
  | @remove block node s e hs he ha =>
    exact ((h.remove hs he ha (hblock _ rfl)).alike (.dropEdges _ node)).alike
      (.markModified _ block)
  | @removeNamed block s name hs =>
    refine (alike ?_ (.foldl_dropEdges _ _)).alike (.markModified _ block)
    refine h.mapPicked (h.linked.modifyStore fun s hs ↦ (h.linked.store block s hs).removeAll _)
      (fun _ ↦ rfl) Entry.withdraw_node fun e he hp ↦ he.withdraw (fun ha ↦ ?_) (hblock _ rfl)
    simp [Entry.isPlaceable, ha, EntryState.isPlaceable] at hp
  | hideNamed name hs => exact h.hideNamed _ name
  | replace spec hs he ha hn hp =>
    exact h.stageReplacement hs he ha hn hp (hblock _ rfl) (hspec _ rfl)
  | @moveTo block node s e n index hs he hplace hn hp =>
    refine alike ?_ (.markModified _ block)
    refine h.modifyStore_of_subset
      (h.linked.modifyStore fun s hs ↦ (h.linked.store block s hs).moveTo node index)
      fun s' hs' ↦ ⟨fun e' he' ↦ ?_, fun x hx ↦ (Store.nodes_moveTo index).mem_iff.mpr hx⟩
    rw [hs] at hs'
    cases hs'
    rcases Store.mem_moveTo he' with he' | ⟨e₀, he₀, hn₀, rfl⟩
    · exact h.entry block s e' hs he'
    · obtain rfl := Store.eq_of_find? (h.linked.store block s hs).nodup he he₀ hn₀
      exact (h.entry block s _ hs he₀).relocated hplace
  | setValue value hn hset => exact h.stageValue hn hset value
  | setLiteral block name value hn hset => exact h.stageValue hn hset value
  | addLiteral name value hs => exact h.add hs fun _ ↦ rfl

end Owned

end Document

end BuildScript
