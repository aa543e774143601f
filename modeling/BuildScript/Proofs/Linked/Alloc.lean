import BuildScript.Proofs.Linked.Basic

namespace BuildScript

mutual

def Spec.isProper : Spec → Bool
  | ⟨_, kind, children, _⟩ => (kind.isContainer || children.isEmpty) && Spec.areProper children

def Spec.areProper : List Spec → Bool
  | [] => true
  | spec :: rest => spec.isProper && Spec.areProper rest

end

theorem Spec.isProper_eq (spec : Spec) : spec.isProper =
    ((spec.kind.isContainer || spec.children.isEmpty) && Spec.areProper spec.children) := by
  cases spec
  rw [isProper]

namespace Document

variable {d d' d'' : Document} {parent b i x : NodeId} {n : Node} {state : EntryState}

/-- The second document has more nodes, and all older nodes and their stores as they were, the
store of `b` apart. -/
structure Extends (b : NodeId) (d d' : Document) : Prop where
  next : d.nextId ≤ d'.nextId
  node : ∀ i, i < d.nextId → d'.node? i = d.node? i
  store : ∀ i, i < d.nextId → i ≠ b → d'.store? i = d.store? i
  overlays : d'.overlays = d.overlays
  overlaySources : d'.overlaySources = d.overlaySources
  config : d'.config = d.config

theorem Extends.refl (b : NodeId) (d : Document) : Extends b d d :=
  ⟨Nat.le_refl _, fun _ _ ↦ rfl, fun _ _ _ ↦ rfl, rfl, rfl, rfl⟩

theorem Extends.trans (h : Extends b d d') (h' : Extends b d' d'') : Extends b d d'' where
  next := Nat.le_trans h.next h'.next
  node i hi := (h'.node i (Nat.lt_of_lt_of_le hi h.next)).trans (h.node i hi)
  store i hi hb := (h'.store i (Nat.lt_of_lt_of_le hi h.next) hb).trans (h.store i hi hb)
  overlays := h'.overlays.trans h.overlays
  overlaySources := h'.overlaySources.trans h.overlaySources
  config := h'.config.trans h.config

theorem Extends.of_fresh (h : Extends d.nextId d d') (b : NodeId) : Extends b d d' :=
  ⟨h.next, h.node, fun i hi _ ↦ h.store i hi (Nat.ne_of_lt hi), h.overlays, h.overlaySources,
    h.config⟩

theorem Extends.push (hd : Linked d) (n : Node) (b : NodeId) : Extends b d (d.push n) where
  next := by rw [nextId_push]; exact Nat.le_succ _
  node i hi := by rw [node?_push, if_neg (Nat.ne_of_lt hi)]
  store i hi _ := by rw [store?_push hd.sizes, if_neg (Nat.ne_of_lt hi)]
  overlays := rfl
  overlaySources := rfl
  config := rfl

theorem Extends.modifyStore (d : Document) (b : NodeId) (f : Store → Store) :
    Extends b d (d.modifyStore b f) where
  next := Nat.le_refl _
  node _ _ := rfl
  store i _ hb := by rw [store?_modifyStore, if_neg hb.symm]
  overlays := rfl
  overlaySources := rfl
  config := rfl

theorem Extends.below (h : Extends b d d') (hd : Linked d) {o : NodeId} (hx : x < d.nextId) :
    Below d' o x ↔ Below d o x := by
  constructor
  · intro hb
    induction hb with
    | refl => exact .refl
    | @step p x n hb hn hp ih =>
      rw [h.node x hx] at hn
      exact .step (ih (Nat.lt_trans (hd.older x n p hn hp) hx)) hn hp
  · intro hb
    exact hb.mono fun x n hn ↦ ⟨n, (h.node x (lt_nextId hn)).trans hn, rfl⟩

theorem StoreFits.of_insert {s s' : Store} {new : NodeId} (h : d.StoreFits b s)
    (hs : s'.nodes.Perm (new :: s.nodes)) (hnew : new ∉ s.nodes) (hl : d.Links b new)
    (hr : ∀ e ∈ s'.entries, e.restore ≠ some .toBeRemoved) : d.StoreFits b s' where
  nodup := hs.nodup_iff.mpr (List.nodup_cons.mpr ⟨hnew, h.nodup⟩)
  links x hx := by
    rcases List.mem_cons.mp (hs.mem_iff.mp hx) with rfl | hx
    · exact hl
    · exact h.links x hx
  restored := hr

theorem StoreFits.add {s : Store} {new : NodeId} (h : d.StoreFits b s) (hnew : new ∉ s.nodes)
    (hl : d.Links b new) (state : EntryState) (existsInSource : Bool) :
    d.StoreFits b (s.add new state existsInSource) := by
  refine h.of_insert ?_ hnew hl fun e he ↦ ?_
  · rw [Store.nodes_add]
    exact List.perm_append_singleton new s.nodes
  · rcases Store.mem_add he with he | rfl
    · exact h.restored e he
    · simp [Entry.fresh]

theorem StoreFits.addAt {s : Store} {new : NodeId} (h : d.StoreFits b s) (hnew : new ∉ s.nodes)
    (hl : d.Links b new) (state : EntryState) (existsInSource : Bool) (index : Int) :
    d.StoreFits b (s.addAt new state existsInSource index) := by
  refine h.of_insert (Store.nodes_addAt state existsInSource index) hnew hl fun e he ↦ ?_
  rcases Store.mem_addAt he with he | rfl
  · exact h.restored e he
  · simp [Entry.fresh]

theorem Linked.pushHead (h : Linked d) (hp : parent < d.nextId) (state : EntryState) (spec : Spec) :
    Linked (d.push (headNode parent state spec)) := by
  refine h.push (fun p hpar ↦ ?_) rfl rfl
  obtain rfl : parent = p := by simpa [headNode] using hpar
  exact hp

theorem Linked.listHead {spec : Spec} (h : Linked d) (hp : parent < d.nextId) (hl : Linked d')
    (he : Extends d.nextId d d')
    (hnode : d'.node? d.nextId = some (headNode parent state spec)) (listed : EntryState)
    (existsInSource : Bool) :
    Linked (d'.modifyStore parent (·.add d.nextId listed existsInSource)) := by
  refine hl.modifyStore fun s hs ↦ ?_
  have hnew : d.nextId ∉ s.nodes := by
    intro hmem
    rw [he.store parent hp (Nat.ne_of_lt hp)] at hs
    exact Nat.lt_irrefl _ ((h.store parent s hs).links _ hmem).1
  refine (hl.store parent s hs).add hnew ⟨lt_nextId hnode, fun n hn ↦ .inl ?_⟩ _ _
  rw [hnode] at hn
  cases hn
  rfl

structure Allocated (d : Document) (parent : NodeId) (state : EntryState) (spec : Spec)
    (d' : Document) : Prop where
  linked : Linked d'
  old : Extends d.nextId d d'
  top : d'.node? d.nextId = some (headNode parent state spec)

theorem Allocated.listTree {spec : Spec} (ha : Allocated d parent state spec d') (h : Linked d)
    (hp : parent < d.nextId) : Linked (listTree d d' parent state spec) :=
  h.listHead hp ha.linked ha.old ha.top state _

/-- In a linked document each step finds the links as they should be, and nothing older touched. -/
theorem Linked.alloc_induction (state : EntryState)
    {M : Document → NodeId → Spec → Document → Prop}
    {N : Document → NodeId → List Spec → Document → Prop}
    (head : ∀ d parent spec d', Linked d → parent < d.nextId →
      Linked (d.push (headNode parent state spec)) → Allocated d parent state spec d' →
      N (d.push (headNode parent state spec)) d.nextId spec.children d' → M d parent spec d')
    (nil : ∀ d parent, Linked d → N d parent [] d)
    (cons : ∀ d parent spec rest d' d'', Linked d → parent < d.nextId →
      Allocated d parent state spec d' → Extends parent (listTree d d' parent state spec) d'' →
      M d parent spec d' → N (listTree d d' parent state spec) parent rest d'' →
      N d parent (spec :: rest) d'')
    (h : Linked d) (hp : parent < d.nextId) :
    (∀ spec, Allocated d parent state spec (d.alloc parent state spec) ∧
      M d parent spec (d.alloc parent state spec)) ∧
    ∀ specs, N d parent specs (d.allocAll parent state specs) := by
  have hall := Document.alloc_induction state
    (M := fun d parent spec d' ↦ Linked d → parent < d.nextId →
      Allocated d parent state spec d' ∧ M d parent spec d')
    (N := fun d parent specs d' ↦ Linked d → parent < d.nextId →
      (Linked d' ∧ Extends parent d d') ∧ N d parent specs d')
    (fun d parent spec d' ih hd hlt ↦ ?_)
      (fun d parent hd _ ↦ ⟨⟨hd, .refl parent d⟩, nil d parent hd⟩)
    (fun d parent spec rest d' d'' ih ih' hd hlt ↦ ?_)
  · exact ⟨fun spec ↦ hall.1 d parent spec h hp, fun specs ↦ (hall.2 d parent specs h hp).2⟩
  · have hpush := hd.pushHead hlt state spec
    have hself : (d.push (headNode parent state spec)).node? d.nextId =
        some (headNode parent state spec) := by rw [node?_push, if_pos rfl]
    obtain ⟨⟨hl, hext⟩, hN⟩ := ih hpush (lt_nextId hself)
    have ha : Allocated d parent state spec d' :=
      ⟨hl, (Extends.push hd _ d.nextId).trans hext,
        (hext.node d.nextId (lt_nextId hself)).trans hself⟩
    exact ⟨ha, head d parent spec d' hd hlt hpush ha hN⟩
  · obtain ⟨ha, hM⟩ := ih hd hlt
    obtain ⟨⟨hl, hext⟩, hN⟩ := ih' (ha.listTree hd hlt) (Nat.lt_of_lt_of_le hlt ha.old.next)
    exact ⟨⟨hl, ((ha.old.of_fresh parent).trans (.modifyStore _ parent _)).trans hext⟩,
      cons d parent spec rest d' d'' hd hlt ha hext hM hN⟩

theorem Linked.alloc (h : Linked d) (hp : parent < d.nextId) (state : EntryState) (spec : Spec) :
    Allocated d parent state spec (d.alloc parent state spec) :=
  ((alloc_induction state (M := fun _ _ _ _ ↦ True) (N := fun _ _ _ _ ↦ True)
    (fun _ _ _ _ _ _ _ _ _ ↦ trivial) (fun _ _ _ ↦ trivial)
    (fun _ _ _ _ _ _ _ _ _ _ _ _ ↦ trivial) h hp).1 spec).1

end Document

end BuildScript
