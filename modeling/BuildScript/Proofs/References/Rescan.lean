import BuildScript.Proofs.Apply.Traversal
import BuildScript.Proofs.Changes.Merge

namespace BuildScript

namespace Node

def IsScanned (id : NodeId) (n : Node) : Prop := n.edges = (n.scanEdges id).edges

structure Refers (n n' : Node) : Prop where
  parent : n'.parent = n.parent
  edges : n'.edges = n.edges
  references : n'.references = n.references

namespace Refers

variable {n n' n'' : Node}

theorem refl (n : Node) : Refers n n := ⟨rfl, rfl, rfl⟩

theorem trans (h : Refers n n') (h' : Refers n' n'') : Refers n n'' :=
  ⟨h'.parent.trans h.parent, h'.edges.trans h.edges, h'.references.trans h.references⟩

theorem isScanned {id : NodeId} (h : Refers n n') (hn : n.IsScanned id) : n'.IsScanned id := by
  simp only [IsScanned, scanEdges] at hn ⊢
  rw [h.edges, h.references, h.parent, hn]

/-- A pending value is seen already, so its commit brings no new references. -/
theorem commit {x : NodeId} (h : n.Fits x) : Refers n n.commit := by
  have hset := h.settable
  obtain ⟨name, kind, parent, source, modified, holders, edges, pending⟩ := n
  cases pending with
  | none => exact refl _
  | some v => cases kind <;> simp_all [isSettable, Kind.value?] <;> exact ⟨rfl, rfl, rfl⟩

theorem createdAt {x : NodeId} (h : n.Fits x) (range : SourceRange) :
    Refers n (n.createdAt range) := by
  simp only [Node.createdAt]
  split
  · exact ⟨rfl, rfl, rfl⟩
  · have hfits : Node.Fits x { n with source := some range } :=
      ⟨h.older, h.distinct, h.foreign, h.settable⟩
    exact ⟨(commit hfits).parent, (commit hfits).edges, (commit hfits).references⟩

end Refers

end Node

namespace Document

variable {C C' : NodeId → Prop} {d₀ d d' d'' : Document} {b i x : NodeId} {σ : Type}

/-- A node is as it was, scanned or in `C`, wherever it comes from. -/
def Rescans (C : NodeId → Prop) (d d' : Document) : Prop :=
  ∀ x n', d'.node? x = some n' → C x ∨ n'.IsScanned x ∨ ∃ n, d.node? x = some n ∧ n.Refers n'

namespace Rescans

theorem refl (C : NodeId → Prop) (d : Document) : Rescans C d d :=
  fun _ n' hn' ↦ .inr (.inr ⟨n', hn', .refl n'⟩)

theorem mono (h : Rescans C d d') (hC : ∀ x, d'.isLive x → C x → C' x) : Rescans C' d d' :=
  fun x n' hn' ↦ (h x n' hn').imp_left (hC x (isLive_iff.mpr ⟨n', hn'⟩))

theorem trans (h : Rescans C d d') (h' : Rescans C d' d'') : Rescans C d d'' := by
  intro x n'' hn''
  rcases h' x n'' hn'' with hx | hs | ⟨n', hn', hr'⟩
  · exact .inl hx
  · exact .inr (.inl hs)
  · rcases h x n' hn' with hx | hs | ⟨n, hn, hr⟩
    · exact .inl hx
    · exact .inr (.inl (hr'.isScanned hs))
    · exact .inr (.inr ⟨n, hn, hr.trans hr'⟩)

theorem of_nodes (hn : d'.nodes = d.nodes) : Rescans C d d' := fun x n' hn' ↦
  .inr (.inr ⟨n', by simpa only [node?, hn] using hn', .refl n'⟩)

theorem of_lost (hn : ∀ x n', d'.node? x = some n' → d.node? x = some n') : Rescans C d d' :=
  fun x n' hn' ↦ .inr (.inr ⟨n', hn x n' hn', .refl n'⟩)

theorem modifyNode {f : Node → Node} (hf : ∀ n, d.node? i = some n → C i ∨ n.Refers (f n)) :
    Rescans C d (d.modifyNode i f) := by
  intro x n' hn'
  rcases node?_of_modifyNode hn' with ⟨rfl, n, hn, rfl⟩ | ⟨-, hn'⟩
  · exact (hf n hn).imp_right fun hr ↦ .inr ⟨n, hn, hr⟩
  · exact .inr (.inr ⟨n', hn', .refl n'⟩)

theorem markModified (d : Document) (i : NodeId) : Rescans C d (d.markModified i) := by
  intro x n' hn'
  rw [Document.markModified,
    node?_foldl_modifyNode (f := fun _ ↦ Node.markModified) (fun _ _ ↦ rfl)] at hn'
  split at hn'
  · obtain ⟨n, hn, rfl⟩ := Option.map_eq_some_iff.mp hn'
    exact .inr (.inr ⟨n, hn, rfl, rfl, rfl⟩)
  · exact .inr (.inr ⟨n', hn', .refl n'⟩)

theorem recordEdges (h : Rescans C d d') (i : NodeId) :
    Rescans (fun x ↦ C x ∧ x ∉ d'.ownedSubtree i) d (d'.recordEdges i) := by
  intro x n'' hn''
  rw [Document.recordEdges, node?_foldl_modifyNode (f := Node.scanEdges) (fun _ _ ↦ rfl)] at hn''
  split at hn''
  · obtain ⟨n', -, rfl⟩ := Option.map_eq_some_iff.mp hn''
    exact .inr (.inl rfl)
  · next hx => exact (h x n'' hn'').imp_left fun hc ↦ ⟨hc, hx⟩

theorem dropEdges (d : Document) (i : NodeId) : Rescans (Below d i) d (d.dropEdges i) := by
  intro x n' hn'
  rw [Document.dropEdges,
    node?_foldl_modifyNode (f := fun _ n ↦ { n with edges := [] }) (fun _ _ ↦ rfl)] at hn'
  split at hn'
  · next hx => exact .inl (ownedSubtree_below hx)
  · exact .inr (.inr ⟨n', hn', .refl n'⟩)

theorem foldl_dropEdges (l : List NodeId) (d : Document) :
    Rescans (fun x ↦ ∃ i ∈ l, Below d i x) d (l.foldl Document.dropEdges d) := by
  refine (List.foldlRecOn (motive := fun d' ↦ Alike d d' ∧
    Rescans (fun x ↦ ∃ i ∈ l, Below d i x) d d') l _ ⟨.refl d, refl _ d⟩ ?_).2
  rintro d' ⟨ha, hr⟩ i hi
  refine ⟨ha.trans (.dropEdges d' i), hr.trans ((dropEdges d' i).mono fun x _ hb ↦ ?_)⟩
  exact ⟨i, hi, ha.below.mp hb⟩

theorem alloc (h : Linked d) (hb : b < d.nextId) (state : EntryState) (spec : Spec) :
    Rescans (d.nextId ≤ ·) d (d.alloc b state spec) := by
  obtain ⟨-, hext, -⟩ := h.alloc hb state spec
  intro x n' hn'
  by_cases hx : d.nextId ≤ x
  · exact .inl hx
  · exact .inr (.inr ⟨n', (hext.node x (Nat.not_le.mp hx)).symm.trans hn', .refl n'⟩)

end Rescans

/-- A write leaves a linked document, in which no node refers to anything else than before. -/
structure Commits (d d' : Document) : Prop where
  linked : Linked d'
  rescans : Rescans (fun _ ↦ False) d d'

namespace Commits

theorem refl (h : Linked d) : Commits d d := ⟨h, .refl _ d⟩

theorem trans (h : Commits d d') (h' : Commits d' d'') : Commits d d'' :=
  ⟨h'.linked, h.rescans.trans h'.rescans⟩

theorem advance (h : Linked d) (hstep : Advance d₀ d d') : Commits d d' := by
  refine ⟨hstep.linked h, ?_⟩
  cases hstep with
  | markWritten id => exact .modifyNode fun _ _ ↦ .inr ⟨rfl, rfl, rfl⟩
  | commit id =>
    refine .modifyNode fun n hn ↦ .inr ?_
    obtain ⟨hp, he, hr⟩ := Node.Refers.commit (h.node id n hn)
    exact ⟨hp, he, hr⟩
  | created range => exact .modifyNode fun n hn ↦ .inr (.createdAt (h.node _ n hn) range)
  | relocated | settle | settleAll | purge => exact .of_nodes rfl
  | @drop c id => exact .of_lost fun _ _ hn' ↦ node?_of_release (d := d.purge c id) hn'

theorem apply (h : Linked d) (w : Writer σ) (st : σ) : Commits d (d.apply w st).document :=
  (Advanced.apply h w st).keeps h (refl h) fun _ _ hl _ hstep hd ↦ hd.trans (advance hl hstep)

end Commits

end Document

end BuildScript
