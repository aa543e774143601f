import BuildScript.Proofs.Apply.Traversal
import BuildScript.Proofs.Folding.Withdrawal

namespace BuildScript

namespace Node

def shape (n : Node) : Name × Tag × Option BlockKind × Option NodeId :=
  (n.name, n.kind.tag, n.kind.blockKind?, n.parent)

theorem shape_commit (n : Node) : n.commit.shape = n.shape := by
  obtain ⟨name, kind, parent, source, modified, holders, edges, pending⟩ := n
  cases pending with
  | none => rfl
  | some v => cases kind <;> rfl

theorem shape_createdAt (range : SourceRange) (n : Node) : (n.createdAt range).shape = n.shape := by
  simp only [createdAt]
  split
  · rfl
  · exact shape_commit { n with source := some range }

end Node

theorem lookup_filter_ne {id source : DocumentId} (h : id ≠ source)
    (l : List (DocumentId × NodeId)) : (l.filter (·.1 != source)).lookup id = l.lookup id := by
  induction l with
  | nil => rfl
  | cons q l ih =>
    by_cases hq : q.1 = source
    · have hne : (id == q.1) = false := by simpa [hq] using h
      rw [List.filter_cons_of_neg (by simp [hq]), ih, List.lookup_cons, hne]
    · rw [List.filter_cons_of_pos (by simpa using hq), List.lookup_cons, List.lookup_cons, ih]

namespace Document

variable {D X d d' d'' : Document} {o x : NodeId} {source : DocumentId}

/-- One operation, whatever comes of it. -/
inductive Operation (d : Document) : Document → Prop
  | edit (edit : Edit) : Operation d (edit.run d).2
  | reset : Operation d d.reset
  | apply {σ : Type} (w : Writer σ) (s : σ) : Operation d (d.apply w s).document
  | merge (other : Document) : Operation d (d.merge other).2
  | takeDiagnostics : Operation d d.takeDiagnostics.2

theorem Reachable.operation (hd : d.Reachable) (h : Operation d d') : d'.Reachable := by
  cases h with
  | edit edit => exact .edit edit hd trivial
  | reset => exact .reset hd
  | apply w s => exact .apply w s hd
  | merge other => exact .merge other hd
  | takeDiagnostics => exact .takeDiagnostics hd

theorem Reachable.run (hD : D.Reachable) (h : Relation.ReflTransGen Operation D X) :
    X.Reachable := by
  induction h with
  | refl => exact hD
  | tail _ hstep ih => exact ih.operation hstep

theorem shape?_eq (d : Document) (x : NodeId) : d.shape? x = (d.node? x).map Node.shape := by
  rw [shape?, face?, Option.map_map]
  rfl

/-- Numbers are not used again, a node that lives on has kept its name, its kind and its parent, and
an overlay that lives on has kept its document. -/
structure Continues (d d' : Document) : Prop where
  next : d.nextId ≤ d'.nextId
  config : d'.config = d.config
  shape : ∀ x, x < d.nextId → d'.isLive x → d'.shape? x = d.shape? x
  source : ∀ id o, d.overlaySources.lookup id = some o → o < d.nextId → d'.isLive o →
    d'.overlaySources.lookup id = some o

namespace Continues

theorem of_nodes (hnext : d'.nextId = d.nextId) (hconfig : d'.config = d.config)
    (hsources : d'.overlaySources = d.overlaySources)
    (hnode : ∀ x n', d'.node? x = some n' → ∃ n, d.node? x = some n ∧ n'.shape = n.shape) :
    Continues d d' where
  next := Nat.le_of_eq hnext.symm
  config := hconfig
  shape x _ hx := by
    obtain ⟨n', hn'⟩ := isLive_iff.mp hx
    obtain ⟨n, hn, he⟩ := hnode x n' hn'
    rw [shape?_eq, shape?_eq, hn, hn', Option.map_some, Option.map_some, he]
  source id o hs _ _ := hsources ▸ hs

theorem refl (d : Document) : Continues d d := of_nodes rfl rfl rfl fun _ n hn ↦ ⟨n, hn, rfl⟩

theorem isLive (h : Continues d d') (hx : x < d.nextId) (hlive : d'.isLive x) : d.isLive x := by
  obtain ⟨n', hn'⟩ := isLive_iff.mp hlive
  obtain ⟨n, hn, -⟩ := node?_of_shape? (h.shape x hx hlive).symm hn'
  exact isLive_iff.mpr ⟨n, hn⟩

theorem below_before {a : NodeId} (h : Continues d d') (ho : d.Older) (hx : x < d.nextId)
    (hb : Below d' a x) : Below d a x := by
  refine below_of_older ho hx (fun y n' hy hn' ↦ ?_) hb
  have hshape := h.shape y hy (isLive_iff.mpr ⟨n', hn'⟩)
  obtain ⟨n, hn, -, -, -, hp⟩ := node?_of_shape? hshape.symm hn'
  exact ⟨n, hn, hp.symm⟩

theorem trans (h : Continues d d') (h' : Continues d' d'') : Continues d d'' where
  next := Nat.le_trans h.next h'.next
  config := h'.config.trans h.config
  shape x hx hlive := by
    have hx' := Nat.lt_of_lt_of_le hx h.next
    exact (h'.shape x hx' hlive).trans (h.shape x hx (h'.isLive hx' hlive))
  source id o hs ho hlive := by
    have ho' := Nat.lt_of_lt_of_le ho h.next
    exact h'.source id o (h.source id o hs ho (h'.isLive ho' hlive)) ho' hlive

theorem of_alike (ha : Alike d d') : Continues d d' := by
  refine of_nodes ha.nextId ha.config ha.overlaySources fun x n' hn' ↦ ?_
  obtain ⟨n, hn, he⟩ := ha.node? hn'
  have hshape : n'.bare.shape = n.bare.shape := congrArg Node.shape he
  exact ⟨n, hn, hshape⟩

theorem of_extends {b : NodeId} (h : Extends b d d') : Continues d d' where
  next := h.next
  config := h.config
  shape x hx _ := by rw [shape?_eq, shape?_eq, h.node x hx]
  source _ _ hs _ _ := h.overlaySources ▸ hs

theorem modifyStore (d : Document) (b : NodeId) (f : Store → Store) :
    Continues d (d.modifyStore b f) :=
  of_nodes rfl rfl rfl fun _ n hn ↦ ⟨n, hn, rfl⟩

theorem modifyNode (d : Document) (i : NodeId) {f : Node → Node}
    (hf : ∀ n, (f n).shape = n.shape) : Continues d (d.modifyNode i f) := by
  refine of_nodes (nextId_modifyNode d i f) rfl rfl fun x n' hn' ↦ ?_
  rcases node?_of_modifyNode hn' with ⟨-, n, hn, rfl⟩ | ⟨-, hn'⟩
  · exact ⟨n, hn, hf n⟩
  · exact ⟨n', hn', rfl⟩

theorem foldl_evict (l : List NodeId) (d : Document) : Continues d (l.foldl evict d) := by
  obtain ⟨hnext, -, -, hsources⟩ := foldl_evict_fields l d
  exact of_nodes hnext (config_foldl_evict l d) hsources
    fun x n' hn' ↦ ⟨n', (node?_of_foldl_evict hn').2, rfl⟩

theorem editKeeps : EditKeeps Continues where
  trans := trans
  alike := of_alike
  extend _ := of_extends
  modifyStore := modifyStore
  setHolders d i _ := modifyNode d i fun _ ↦ rfl
  setPending d i _ := modifyNode d i fun _ ↦ rfl

theorem reset (h : Linked d) : Continues d d.reset := by
  obtain ⟨l, hl⟩ := reset_eq_evict h
  have hstores : Continues d d.resetStores :=
    List.foldlRecOn (motive := Continues d) d.stores.ids _ (refl d)
      fun d' hd b _ ↦ hd.trans (modifyStore d' b _)
  have hsettled : ∀ d : Document, Continues d d.settleNodes := fun d ↦ by
    refine of_nodes (d.nodes.size_map _) rfl rfl fun x n' hn' ↦ ?_
    rw [settleNodes, node?, Table.get?_map] at hn'
    obtain ⟨n, hn, rfl⟩ := Option.map_eq_some_iff.mp hn'
    exact ⟨n, hn, rfl⟩
  rw [hl]
  exact (hstores.trans (foldl_evict l _)).trans (hsettled _)

theorem apply {σ : Type} (h : Linked d) (w : Writer σ) (s : σ) :
    Continues d (d.apply w s).document := by
  refine (Advanced.apply h w s).keeps (P := Continues d) h (refl d) fun d₁ d₂ _ _ hstep hd ↦ ?_
  refine hd.trans ?_
  cases hstep with
  | markWritten id => exact modifyNode d₁ id fun _ ↦ rfl
  | commit id => exact modifyNode d₁ id Node.shape_commit
  | @created c id _ range =>
    exact (modifyNode d₁ id (Node.shape_createdAt range)).trans (modifyStore _ c _)
  | @relocated c => exact modifyStore d₁ c _
  | @settle c => exact modifyStore d₁ c _
  | @settleAll c => exact modifyStore d₁ c _
  | @purge c => exact modifyStore d₁ c _
  | @drop c => exact (modifyStore d₁ c _).trans (foldl_evict _ _)

theorem supersede (d : Document) (source : DocumentId) : Continues d (d.supersede source).2 := by
  cases hlookup : d.overlaySources.lookup source with
  | none =>
    rw [supersede_of_new hlookup]
    exact refl d
  | some o =>
    let d₀ : Document := { d with
      overlaySources := d.overlaySources.filter (·.1 != source)
      overlays := d.overlays.filter (· != o) }
    have he : (d.supersede source).2 = d₀.release o := by rw [Document.supersede, hlookup]
    have hrelease : Continues d₀ (d₀.release o) := foldl_evict _ d₀
    rw [he]
    refine ⟨hrelease.next, hrelease.config, hrelease.shape, fun id o' hs ho' hlive ↦ ?_⟩
    refine hrelease.source id o' ((lookup_filter_ne ?_ _).trans hs) ho' hlive
    rintro rfl
    rw [hlookup] at hs
    cases hs
    simp [Document.isLive, node?_release_self] at hlive

theorem merge (h : Linked d) (other : Document) : Continues d (d.merge other).2 := by
  refine (supersede d other.id).trans ?_
  refine (merge_induction (C := Continues (d.supersede other.id).2)
    (M := Continues (d.supersede other.id).2) h other ?_ (fun d' b n s hd _ hC _ _ ↦ ?_)
    (fun d' _ _ hC ↦ ?_) (fun d' b t n p _ hM _ _ _ _ _ _ _ ↦ ?_) fun d' b _ _ hd hM _ ↦ ?_).2
  · exact of_extends (.push (h.supersede other.id) overlayNode root)
  · exact hC.trans (of_extends (.enroll hd b _))
  · refine (hC.trans (of_alike (.recordEdges d' (d.overlayId other)))).trans ?_
    refine ⟨Nat.le_refl _, rfl, fun _ _ _ ↦ rfl, fun id o hs _ _ ↦ ?_⟩
    rw [announce, List.lookup_append, hs]
    rfl
  · have hstore := modifyStore d' b (·.add t .applied false)
    exact hM.trans (hstore.trans (modifyNode _ t fun _ ↦ rfl))
  · exact hM.trans (of_extends (.enroll hd b _))

end Continues

theorem Operation.continues (h : Operation d d') (hd : Linked d) : Continues d d' := by
  cases h with
  | edit edit => exact Continues.editKeeps.edit hd edit
  | reset => exact .reset hd
  | apply w s => exact .apply hd w s
  | merge other => exact .merge hd other
  | takeDiagnostics => exact .of_nodes rfl rfl rfl fun _ n hn ↦ ⟨n, hn, rfl⟩

theorem Reachable.continues (hD : D.Reachable) (h : Relation.ReflTransGen Operation D X) :
    Continues D X := by
  induction h with
  | refl => exact .refl D
  | tail hrun hstep ih => exact ih.trans (hstep.continues (hD.run hrun).linked)

end Document

end BuildScript
