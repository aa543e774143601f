import BuildScript.Proofs.References.Scanned

namespace BuildScript

namespace Document

variable {d : Document} {full : Prop} {ov : List NodeId} {U : NodeId → Prop} {id : NodeId}
  {l l' : List NodeId} {es : List Entry} {n : Node}

def ownVisible (d : Document) (block : NodeId) : List Entry :=
  (d.entries block).filter (·.isOwnVisible)

mutual

/-- Walking from a node in pre-order through what is visible and not applied meets these nodes. -/
inductive Walk (d : Document) : NodeId → List NodeId → Prop
  | node {id : NodeId} {l : List NodeId} : WalkAll d (d.ownVisible id) l → Walk d id (id :: l)

inductive WalkAll (d : Document) : List Entry → List NodeId → Prop
  | nil : WalkAll d [] []
  | cons {e : Entry} {es : List Entry} {l l' : List NodeId} : Walk d e.node l → WalkAll d es l' →
      WalkAll d (e :: es) (l ++ l')

end

mutual

theorem Walk.unique : ∀ {id : NodeId} {l l' : List NodeId}, Walk d id l → Walk d id l' → l' = l
  | _, _, _, .node h, .node h' => by rw [h.unique h']

theorem WalkAll.unique : ∀ {es : List Entry} {l l' : List NodeId},
    WalkAll d es l → WalkAll d es l' → l' = l
  | _, _, _, .nil, .nil => rfl
  | _, _, _, .cons h hs, .cons h' hs' => by rw [h.unique h', hs.unique hs']

end

/-- One edge for each reference in the effective values of a node, with its parent as the scope. -/
def edgesOf (d : Document) (id : NodeId) : List Dependency :=
  match d.node? id with
  | none => []
  | some n =>
    match n.parent with
    | none => []
    | some p => (n.values.flatMap Value.references).map (⟨id, ·, p⟩)

theorem Owned.references_eq_nil (h : Owned full ov U d) (hn : d.node? id = some n)
    (hp : n.parent = none) : n.references = [] := by
  have hc : n.isContainer := by
    rcases h.top id n hn hp with rfl | ho
    · obtain ⟨m, hm, hc, -⟩ := h.linked.root
      rw [hn] at hm
      cases hm
      exact hc
    · obtain ⟨-, m, hm, -, hc⟩ := h.overlay id ho
      rw [hn] at hm
      cases hm
      exact hc
  have hset := (h.linked.node id n hn).settable
  obtain ⟨name, kind, parent, source, modified, holders, edges, pending⟩ := n
  cases pending <;> cases kind <;>
    simp_all [Node.references, Node.values, Node.isContainer, Node.isSettable, Kind.isContainer,
      Kind.values, Kind.value?]

theorem Scanned.edges_eq (h : Scanned d) (ho : Owned full ov U d) (hid : Shown d id)
    (hn : d.node? id = some n) : n.edges = d.edgesOf id := by
  rw [h id n hid hn, edgesOf, hn]
  cases hp : n.parent with
  | none => simp [Node.scanEdges, ho.references_eq_nil hn hp, hp]
  | some p => simp [Node.scanEdges, Node.references, hp]

theorem Scanned.walk {fuel : Nat} (h : Scanned d) (ho : Owned full ov U d) (hid : Shown d id)
    (hf : d.nextId ≤ fuel + id) :
    ∃ l, Walk d id l ∧ d.dependenciesWithin fuel id = l.flatMap d.edgesOf := by
  obtain ⟨n, hn⟩ := isLive_iff.mp (hid.isLive ho)
  induction fuel generalizing id n with
  | zero => exact absurd (lt_nextId hn) (Nat.not_lt.mpr (by simpa using hf))
  | succ fuel ih =>
    have hall : ∀ es : List Entry, (∀ e ∈ es, e ∈ d.ownVisible id) → ∃ l, WalkAll d es l ∧
        es.flatMap (fun e ↦ d.dependenciesWithin fuel e.node) = l.flatMap d.edgesOf := by
      intro es
      induction es with
      | nil => exact fun _ ↦ ⟨[], .nil, rfl⟩
      | cons e es ihes =>
        intro hes
        obtain ⟨he, hv⟩ := List.mem_filter.mp (hes e List.mem_cons_self)
        obtain ⟨s, hs, he⟩ : ∃ s, d.store? id = some s ∧ e ∈ s.entries := by
          unfold entries at he
          split at he
          · next s hs => exact ⟨s, hs, he⟩
          · simp at he
        obtain ⟨m, hm, hp⟩ := Shown.owned ho hs he hv
        have hlt := ho.linked.older e.node m id hm hp
        obtain ⟨l, hl, heq⟩ := ih (.entry hid hs he hv) (by lia) m hm
        obtain ⟨l', hl', heq'⟩ := ihes fun e' he' ↦ hes e' (List.mem_cons_of_mem e he')
        exact ⟨l ++ l', .cons hl hl', by simp [heq, heq']⟩
    obtain ⟨l, hl, heq⟩ := hall (d.ownVisible id) fun _ he ↦ he
    refine ⟨id :: l, .node hl, ?_⟩
    simp only [dependenciesWithin, hn]
    rw [List.flatMap_cons, ← heq, h.edges_eq ho hid hn]
    rfl

/-- The edges stay in step with the tree: they are those of a walk over the main tree, whatever has
been asked of it. -/
theorem allDependencies_eq_walk (hd : Reached InMainTree d) :
    ∃ l, (∀ l', Walk d root l' ↔ l' = l) ∧ d.allDependencies = l.flatMap d.edgesOf := by
  have ho : Owned False d.overlays (fun _ ↦ False) d := hd.owned fun _ _ ha ↦ ⟨ha, False.elim⟩
  obtain ⟨l, hl, heq⟩ := hd.scanned.walk ho .root (Nat.le_add_right d.nextId root)
  exact ⟨l, fun l' ↦ ⟨hl.unique, fun he ↦ he ▸ hl⟩, heq⟩

def referringDocument : Document :=
  let d := ((Edit.addParsed root (.literal ⟨["major"]⟩ (.integer 1))).run (.new ⟨"app"⟩ {})).2
  let d := ((Edit.addParsed root
    { name := ⟨["android"]⟩, kind := .block "android"
      children := [.literal ⟨["name"]⟩ (.template [.text "v", .reference "major"]),
        .literal ⟨["code"]⟩ (.reference "major"), .literal ⟨["old"]⟩ (.reference "name")]
          }).run d).2
  let d := ((Edit.setValue 4 (.reference "version")).run (d.merge libraryDocument).2).2
  ((Edit.remove 2 5).run d).2

theorem allDependencies_of_set_and_removed :
    Reached InMainTree referringDocument ∧
    (∃ l, (∀ l', Walk referringDocument root l' ↔ l' = l) ∧
      referringDocument.allDependencies = l.flatMap referringDocument.edgesOf) ∧
    referringDocument.allDependencies = [⟨3, "major", 2⟩, ⟨4, "version", 2⟩] := by
  have hd : Reached InMainTree referringDocument :=
    .edit _ (.edit _ (.merge libraryDocument (.edit _ (.edit _ (.new ⟨"app"⟩ {})
      (by decide +kernel)) (by decide +kernel))) (by decide +kernel)) (by decide +kernel)
  exact ⟨hd, allDependencies_eq_walk hd, by decide +kernel⟩

end Document

end BuildScript
