import BuildScript.Proofs.References.Scanned

namespace BuildScript

mutual

def Spec.references : Spec → List String
  | ⟨_, kind, children, _⟩ => kind.values.flatMap Value.references ++ Spec.allReferences children

def Spec.allReferences : List Spec → List String
  | [] => []
  | spec :: rest => spec.references ++ Spec.allReferences rest

end

namespace Document

variable {d d' : Document} {c i lo parent x y : NodeId} {n : Node} {s : Store} {fuel : Nat}

def shownChildren (d : Document) (x : NodeId) : List NodeId :=
  ((d.entries x).filter (·.isOwnVisible)).map (·.node)

mutual

/-- The node `x` and what is shown below it stand for a tree of declarations. -/
def Represents (d : Document) (x : NodeId) : Spec → Prop
  | ⟨_, kind, children, _⟩ =>
    (∃ n, d.node? x = some n ∧ n.references = kind.values.flatMap Value.references) ∧
      (∀ c ∈ d.shownChildren x, d.isOwnedBy c x) ∧ AllRepresent d (d.shownChildren x) children

def AllRepresent (d : Document) : List NodeId → List Spec → Prop
  | [], [] => True
  | x :: l, spec :: rest => Represents d x spec ∧ AllRepresent d l rest
  | _, _ => False

end

theorem Represents.isLive : ∀ {spec : Spec}, Represents d x spec → d.isLive x
  | ⟨_, _, _, _⟩, h => by
    rw [Represents] at h
    obtain ⟨⟨n, hn, -⟩, -⟩ := h
    exact isLive_iff.mpr ⟨n, hn⟩

/-- From `lo` on nodes keep their parents and references, and blocks their entries. -/
structure KeepsReferences (lo : NodeId) (d d' : Document) : Prop where
  node : ∀ x n, lo ≤ x → d.node? x = some n →
    ∃ n', d'.node? x = some n' ∧ n'.parent = n.parent ∧ n'.references = n.references
  entries : ∀ x, lo ≤ x → d.isLive x → d'.entries x = d.entries x

mutual

theorem Represents.keepsReferences (ho : d.Older) (he : KeepsReferences lo d d') :
    ∀ (spec : Spec) (x : NodeId), lo ≤ x → Represents d x spec → Represents d' x spec
  | ⟨_, kind, children, _⟩, x, hx, h => by
    rw [Represents] at h ⊢
    obtain ⟨⟨n, hn, href⟩, hown, hall⟩ := h
    obtain ⟨n', hn', -, href'⟩ := he.node x n hx hn
    have hshown : d'.shownChildren x = d.shownChildren x := by
      rw [shownChildren, shownChildren, he.entries x hx (isLive_iff.mpr ⟨n, hn⟩)]
    have hle : ∀ c ∈ d.shownChildren x, lo ≤ c := fun c hc ↦ by
      obtain ⟨m, hm, hp⟩ := isOwnedBy_iff.mp (hown c hc)
      exact Nat.le_trans hx (Nat.le_of_lt (ho c m x hm hp))
    rw [hshown]
    refine ⟨⟨n', hn', href'.trans href⟩, fun c hc ↦ ?_,
      AllRepresent.keepsReferences ho he children _ hle hall⟩
    obtain ⟨m, hm, hp⟩ := isOwnedBy_iff.mp (hown c hc)
    obtain ⟨m', hm', hp', -⟩ := he.node c m (hle c hc) hm
    exact isOwnedBy_iff.mpr ⟨m', hm', hp'.trans hp⟩

theorem AllRepresent.keepsReferences (ho : d.Older) (he : KeepsReferences lo d d') :
    ∀ (specs : List Spec) (l : List NodeId), (∀ c ∈ l, lo ≤ c) → AllRepresent d l specs →
      AllRepresent d' l specs
  | [], [], _, _ => by rw [AllRepresent]; trivial
  | spec :: rest, x :: l, hl, h => by
    rw [AllRepresent] at h ⊢
    obtain ⟨hx, hl⟩ := List.forall_mem_cons.mp hl
    exact ⟨Represents.keepsReferences ho he spec x hx h.1,
      AllRepresent.keepsReferences ho he rest l hl h.2⟩
  | [], _ :: _, _, h => by simp [AllRepresent] at h
  | _ :: _, [], _, h => by simp [AllRepresent] at h

end

theorem shownChildren_fresh {l : List NodeId} (hs : d.store? x = some s)
    (he : s.entries = l.map (.fresh · .toBeAdded false)) : d.shownChildren x = l := by
  have hall : ∀ e ∈ s.entries, e.isOwnVisible = true := fun e hmem ↦ by
    rw [he] at hmem
    obtain ⟨c, -, rfl⟩ := List.mem_map.mp hmem
    rfl
  rw [shownChildren, entries_eq hs, List.filter_eq_self.mpr hall, he, List.map_map]
  exact List.map_id l

/-- The head of a tree and its children, shown in its block if it is one, make the tree. -/
theorem represents_of_children {spec : Spec} (hl : Linked d) (hn : d.node? x = some n)
    (href : n.references = spec.kind.values.flatMap Value.references)
    (hkind : n.isContainer = spec.kind.isContainer) (hproper : spec.isProper)
    (hchildren : spec.kind.isContainer → ∃ l, AllRepresent d l spec.children ∧
      d.store? x = some { entries := l.map (.fresh · .toBeAdded false) } ∧
      ∀ c ∈ l, d.isOwnedBy c x) : Represents d x spec := by
  obtain ⟨name, kind, children, source⟩ := spec
  rw [Represents]
  refine ⟨⟨n, hn, href⟩, ?_⟩
  cases hc : kind.isContainer with
  | true =>
    obtain ⟨l, hall, hs, hown⟩ := hchildren hc
    rw [shownChildren_fresh hs rfl]
    exact ⟨hown, hall⟩
  | false =>
    rw [Spec.isProper, Bool.and_eq_true, Bool.or_eq_true] at hproper
    obtain rfl : children = [] := by simpa [hc] using hproper.1
    have hnone : d.store? x = none := by
      have hk := hl.keyed x
      rw [hn, Option.any_some, hkind] at hk
      simpa using hk.trans hc
    have hnil : d.shownChildren x = [] := by
      simp only [shownChildren, entries, hnone, List.filter_nil, List.map_nil]
    rw [hnil, AllRepresent]
    simp

/-- A tree stays as it is while its siblings are numbered behind it. -/
theorem Extends.keepsReferences (hp : parent < lo) (list : Store → Store)
    (hext : Extends parent (d.modifyStore parent list) d') : KeepsReferences lo d d' := by
  refine ⟨fun x n _ hn ↦ ⟨n, (hext.node x (lt_nextId hn)).trans hn, rfl, rfl⟩, fun x hx hlive ↦ ?_⟩
  obtain ⟨n, hn⟩ := isLive_iff.mp hlive
  have hne : parent ≠ x := Nat.ne_of_lt (Nat.lt_of_lt_of_le hp hx)
  have hstore := hext.store x (lt_nextId hn) hne.symm
  rw [store?_modifyStore, if_neg hne] at hstore
  simp only [Document.entries, hstore]

/-- A tree of declarations that has been numbered is there, with all of it shown. -/
theorem represents_alloc (h : Linked d) (hp : parent < d.nextId) {spec : Spec}
    (hproper : spec.isProper) : Represents (d.alloc parent .toBeAdded spec) d.nextId spec := by
  refine ((Linked.alloc_induction .toBeAdded
    (M := fun d _ spec d' ↦ spec.isProper → Represents d' d.nextId spec)
    (N := fun d parent specs d' ↦ Spec.areProper specs → ∀ s, d.store? parent = some s →
      ∃ l, AllRepresent d' l specs ∧
        d'.store? parent =
          some { s with entries := s.entries ++ l.map (.fresh · .toBeAdded false) } ∧
        ∀ c ∈ l, d.nextId ≤ c ∧ d'.isOwnedBy c parent)
    (fun d parent spec d' hd _ _ ha ih hproper ↦ ?_)
    (fun d parent _ _ s hs ↦ ⟨[], by rw [AllRepresent]; trivial, by simpa using hs, by simp⟩)
    (fun d parent spec rest d' d'' hd hp ha hext ih ih' hproper s hs ↦ ?_) h hp).1 spec).2 hproper
  · refine represents_of_children ha.linked ha.top rfl rfl hproper fun hc ↦ ?_
    have hs : (d.push (headNode parent .toBeAdded spec)).store? d.nextId = some {} := by
      rw [store?_push hd.sizes, if_pos rfl]
      exact if_pos hc
    have hchildren := (Bool.and_eq_true_iff.mp (Spec.isProper_eq spec ▸ hproper)).2
    obtain ⟨l, hall, hs', hown⟩ := ih hchildren {} hs
    exact ⟨l, hall, by simpa using hs', fun c hc ↦ (hown c hc).2⟩
  · rw [Spec.areProper, Bool.and_eq_true] at hproper
    have hs' : (listTree d d' parent .toBeAdded spec).store? parent =
        some (s.add d.nextId .toBeAdded false) := by
      rw [listTree, store?_modifyStore, if_pos rfl, ha.old.store parent hp (Nat.ne_of_lt hp), hs]
      rfl
    obtain ⟨l, hall, hs'', hown⟩ := ih' hproper.2 _ hs'
    have hkeepsRefs : KeepsReferences d.nextId d' d'' := hext.keepsReferences hp _
    refine ⟨d.nextId :: l, ?_, ?_, fun c hc ↦ ?_⟩
    · rw [AllRepresent]
      exact ⟨Represents.keepsReferences ha.linked.older hkeepsRefs spec _ (Nat.le_refl _)
        (ih hproper.1), hall⟩
    · rw [hs'']
      simp [Store.add]
    · rcases List.mem_cons.mp hc with rfl | hc
      · have hnode := (hext.node _ (lt_nextId ha.top)).trans ha.top
        exact ⟨Nat.le_refl _, isOwnedBy_iff.mpr ⟨_, hnode, rfl⟩⟩
      · exact ⟨Nat.le_trans ha.old.next (hown c hc).1, (hown c hc).2⟩

mutual

/-- Where everything has been scanned, the edges of a tree come from its references, in their
order. -/
theorem Represents.map_reference (h : Linked d)
    (hscan : ∀ y ∈ d.ownedSubtree i, ∀ n, d.node? y = some n → n.IsScanned y) :
    ∀ (spec : Spec) (fuel : Nat) (x : NodeId), x ∈ d.ownedSubtree i → d.nextId ≤ fuel + x →
      Represents d x spec → (d.dependenciesWithin fuel x).map (·.reference) = spec.references
  | ⟨_, kind, children, _⟩, fuel, x, hx, hf, hs => by
    rw [Represents] at hs
    obtain ⟨⟨n, hn, href⟩, hown, hall⟩ := hs
    cases fuel with
    | zero => exact absurd (lt_nextId hn) (Nat.not_lt.mpr (by simpa using hf))
    | succ fuel =>
      have hedges : n.edges.map (·.reference) = kind.values.flatMap Value.references := by
        rw [hscan x hx n hn, Node.scanEdges, ← href, List.map_map]
        exact List.map_id _
      have hbelow : ∀ c ∈ d.shownChildren x, c ∈ d.ownedSubtree i ∧ d.nextId ≤ fuel + c := by
        intro c hc
        obtain ⟨m, hm, hp⟩ := isOwnedBy_iff.mp (hown c hc)
        obtain ⟨e, he, rfl⟩ := List.mem_map.mp hc
        obtain ⟨s, hs, hmem⟩ := mem_entries.mp (List.mem_filter.mp he).1
        have hlt := h.older e.node m x hm hp
        refine ⟨ownedSubtree_child h.older hx
          (mem_ownedChildren.mpr ⟨⟨s, hs, Store.mem_nodes_of_mem hmem⟩, m, hm, hp⟩), by lia⟩
      have hrest := AllRepresent.map_reference h hscan children fuel _ hbelow hall
      rw [dependenciesWithin, hn, Spec.references]
      simp only [List.map_append, hedges]
      rw [← hrest, shownChildren, List.flatMap_map]

theorem AllRepresent.map_reference (h : Linked d)
    (hscan : ∀ y ∈ d.ownedSubtree i, ∀ n, d.node? y = some n → n.IsScanned y) :
    ∀ (specs : List Spec) (fuel : Nat) (l : List NodeId),
      (∀ c ∈ l, c ∈ d.ownedSubtree i ∧ d.nextId ≤ fuel + c) → AllRepresent d l specs →
      (l.flatMap (d.dependenciesWithin fuel)).map (·.reference) = Spec.allReferences specs
  | [], _, [], _, _ => rfl
  | spec :: rest, fuel, x :: l, hl, hs => by
    rw [AllRepresent] at hs
    obtain ⟨⟨hx, hf⟩, hl⟩ := List.forall_mem_cons.mp hl
    rw [List.flatMap_cons, List.map_append, Spec.allReferences,
      Represents.map_reference h hscan spec fuel x hx hf hs.1,
      AllRepresent.map_reference h hscan rest fuel l hl hs.2]
  | [], _, _ :: _, _, hs => by simp [AllRepresent] at hs
  | _ :: _, _, [], _, hs => by simp [AllRepresent] at hs

end

end Document

end BuildScript
