import Mathlib.Data.List.Induction
import BuildScript.Document.Reset
import BuildScript.Proofs.Linked.Basic
import BuildScript.Proofs.Store.Staging

namespace BuildScript

def Node.settledAt (id : NodeId) (n : Node) : Node :=
  Node.scanEdges id { n with pending := none, modified := false }

theorem Table.nodup_ids {α : Type} (t : Table α) : t.ids.Nodup := List.nodup_range.filter _

namespace Document

variable {d : Document} {b i x y : NodeId} {n : Node} {s : Store}

def resetStores (d : Document) : Document :=
  d.stores.ids.foldl (fun d block ↦ d.modifyStore block Store.reset) d

def releaseAll (d : Document) (discarded : List (NodeId × NodeId)) : Document :=
  discarded.foldl (fun d (block, node) ↦ if d.isOwnedBy node block then d.release node else d) d

def settleNodes (d : Document) : Document := { d with nodes := d.nodes.map Node.settledAt }

theorem reset_eq (d : Document) :
    d.reset = (d.resetStores.releaseAll (d.discards d.stores.ids)).settleNodes := rfl

theorem store?_resetStores (d : Document) (y : NodeId) :
    d.resetStores.store? y = (d.store? y).map Store.reset := by
  rw [resetStores, store?_foldl_modifyStore d.stores.nodup_ids]
  split
  · rfl
  · next hy =>
    have hnone : d.store? y = none := by simpa [Document.store?] using hy
    simp [hnone]

theorem node?_resetStores (d : Document) (x : NodeId) : d.resetStores.node? x = d.node? x := by
  simp only [node?, resetStores, (foldl_modifyStore_fields d.stores.ids Store.reset d).1]

theorem mem_discards {d : Document} {b x : NodeId} : (b, x) ∈ d.discards d.stores.ids ↔
    ∃ s, d.store? b = some s ∧ x ∈ s.stagedNodes := by
  simp only [discards, List.mem_flatMap, Table.mem_ids]
  constructor
  · rintro ⟨b', -, h⟩
    split at h
    · next s hs =>
      obtain ⟨x', hx', he⟩ := List.mem_map.mp h
      cases he
      exact ⟨s, hs, hx'⟩
    · simp at h
  · rintro ⟨s, hs, hx⟩
    refine ⟨b, Option.isSome_iff_exists.mpr ⟨s, hs⟩, ?_⟩
    rw [hs]
    exact List.mem_map_of_mem hx

theorem Older.foldl_evict (h : d.Older) (l : List NodeId) : (l.foldl evict d).Older := by
  intro x n p hn hp
  exact h x n p (node?_of_foldl_evict hn).2 hp

theorem mem_store?_foldl_evict {l : List NodeId} (hs : d.store? y = some s) (hy : y ∉ l)
    (hh : ∀ x n, d.node? x = some n → n.holders.Nodup) :
    ∃ s', (l.foldl evict d).store? y = some s' ∧
      ∀ e ∈ s.entries, e.node ∉ l → e ∈ s'.entries := by
  induction l generalizing d s with
  | nil => exact ⟨s, hs, fun e he _ ↦ he⟩
  | cons id l ih =>
    obtain ⟨hne, hyl⟩ : y ≠ id ∧ y ∉ l := by simpa using hy
    have hstep : ∃ s', (d.evict id).store? y = some s' ∧
        ∀ e ∈ s.entries, e.node ≠ id → e ∈ s'.entries := by
      cases hn : d.node? id with
      | none => exact ⟨s, by rw [evict_of_none hn, hs], fun e he _ ↦ he⟩
      | some n =>
        rw [store?_evict_of_ne hn (hh id n hn) hne]
        split
        · refine ⟨s.purge id, by simp [hs], fun e he hid ↦ ?_⟩
          exact (List.mem_eraseP_of_neg (by simpa using hid)).mpr he
        · exact ⟨s, hs, fun e he _ ↦ he⟩
    obtain ⟨s₁, hs₁, hmem₁⟩ := hstep
    obtain ⟨s₂, hs₂, hmem₂⟩ := ih hs₁ hyl fun x n hn ↦ hh x n (node?_of_evict hn)
    refine ⟨s₂, hs₂, fun e he hel ↦ ?_⟩
    obtain ⟨hid, hel⟩ : e.node ≠ id ∧ e.node ∉ l := by simpa using hel
    exact hmem₂ e (hmem₁ e he hid) hel

theorem isOwnedBy_of_foldl_evict {l : List NodeId} (h : (l.foldl evict d).isOwnedBy x b) :
    d.isOwnedBy x b := by
  obtain ⟨n, hn, hp⟩ := isOwnedBy_iff.mp h
  exact isOwnedBy_iff.mpr ⟨n, (node?_of_foldl_evict hn).2, hp⟩

theorem isOwnedBy_foldl_evict {l : List NodeId} (hx : x ∉ l) (h : d.isOwnedBy x b) :
    (l.foldl evict d).isOwnedBy x b := by
  obtain ⟨n, hn, hp⟩ := isOwnedBy_iff.mp h
  exact isOwnedBy_iff.mpr ⟨n, by rw [node?_foldl_evict, if_neg hx, hn], hp⟩

theorem mem_ownedChildren_of_foldl_evict {l : List NodeId} (h : Linked d)
    (hx : x ∈ (l.foldl evict d).ownedChildren b) : x ∈ d.ownedChildren b := by
  obtain ⟨⟨s', hs', hxs⟩, n, hn, hp⟩ := mem_ownedChildren.mp hx
  obtain ⟨s, hs, -, hsub⟩ := store?_foldl_evict_sublist h.distinct hs'
  exact mem_ownedChildren.mpr
    ⟨⟨s, hs, (hsub.map _).subset hxs⟩, n, (node?_of_foldl_evict hn).2, hp⟩

theorem mem_ownedChildren_foldl_evict {l : List NodeId} (h : Linked d) (hb : b ∉ l) (hx : x ∉ l)
    (hc : x ∈ d.ownedChildren b) : x ∈ (l.foldl evict d).ownedChildren b := by
  obtain ⟨⟨s, hs, hxs⟩, n, hn, hp⟩ := mem_ownedChildren.mp hc
  obtain ⟨s', hs', hkeep⟩ := mem_store?_foldl_evict hs hb h.distinct
  obtain ⟨e, he, rfl⟩ := List.mem_map.mp hxs
  refine mem_ownedChildren.mpr ⟨⟨s', hs', Store.mem_nodes_of_mem (hkeep e he hx)⟩, n, ?_, hp⟩
  rw [node?_foldl_evict, if_neg hx, hn]

/-- What goes when the listed nodes are released: those that their blocks own, and all that is
owned and listed by what goes. -/
inductive Swept (d : Document) (discarded : List (NodeId × NodeId)) : NodeId → Prop
  | top {b t : NodeId} : (b, t) ∈ discarded → d.isOwnedBy t b → Swept d discarded t
  | child {p x : NodeId} : Swept d discarded p → x ∈ d.ownedChildren p → Swept d discarded x

theorem Swept.mono {discarded discarded' : List (NodeId × NodeId)} (h : Swept d discarded x)
    (hd : discarded ⊆ discarded') : Swept d discarded' x := by
  induction h with
  | top hmem hown => exact .top (hd hmem) hown
  | child _ hx ih => exact ih.child hx

theorem Swept.exists_top {discarded : List (NodeId × NodeId)} (h : Swept d discarded x) :
    ∃ b t, (b, t) ∈ discarded ∧ d.isOwnedBy t b ∧ Below d t x := by
  induction h with
  | @top b t hmem hown => exact ⟨b, t, hmem, hown, .refl⟩
  | child _ hx ih =>
    obtain ⟨b, t, hmem, hown, hbelow⟩ := ih
    obtain ⟨-, n, hn, hp⟩ := mem_ownedChildren.mp hx
    exact ⟨b, t, hmem, hown, .step hbelow hn hp⟩

/-- After some evictions a node still takes with it only what it would have taken before. -/
theorem Swept.of_mem_ownedSubtree {discarded : List (NodeId × NodeId)} {l : List NodeId}
    {t : NodeId}
    (h : Linked d) (ht : Swept d discarded t) (hx : x ∈ (l.foldl evict d).ownedSubtree t) :
    Swept d discarded x := by
  induction x using Nat.strongRecOn with
  | ind x ih =>
    by_cases hxt : x = t
    · exact hxt ▸ ht
    · obtain ⟨p, hp, hxp⟩ := ownedSubtree_owner hx hxt
      have hchild := mem_ownedChildren_of_foldl_evict h hxp
      obtain ⟨-, n, hn, hpar⟩ := mem_ownedChildren.mp hchild
      exact (ih p (h.older x n p hn hpar) hp).child hchild

/-- Releasing is evicting exactly what is swept. -/
theorem releaseAll_swept (h : Linked d) (discarded : List (NodeId × NodeId)) :
    ∃ l : List NodeId, d.releaseAll discarded = l.foldl evict d ∧
      ∀ x, x ∈ l ↔ Swept d discarded x := by
  induction discarded using List.reverseRecOn with
  | nil =>
    refine ⟨[], rfl, fun x ↦ ⟨by simp, fun hx ↦ ?_⟩⟩
    obtain ⟨b, t, hmem, -⟩ := hx.exists_top
    cases hmem
  | append_singleton discarded bt ih =>
    obtain ⟨b, t⟩ := bt
    obtain ⟨l, he, hl⟩ := ih
    have hold : ∀ x ∈ l, Swept d (discarded ++ [(b, t)]) x := fun x hx ↦
      ((hl x).mp hx).mono (List.subset_append_left _ _)
    have hfold : d.releaseAll (discarded ++ [(b, t)]) =
        if (l.foldl evict d).isOwnedBy t b then (l.foldl evict d).release t
        else l.foldl evict d := by
      rw [← he, releaseAll, List.foldl_append]
      rfl
    rw [hfold]
    split
    · next hown =>
      refine ⟨l ++ (l.foldl evict d).ownedSubtree t, by rw [List.foldl_append, release],
        fun x ↦ ⟨fun hx ↦ ?_, fun hx ↦ ?_⟩⟩
      · have ht : Swept d (discarded ++ [(b, t)]) t :=
          .top (by simp) (isOwnedBy_of_foldl_evict hown)
        exact (List.mem_append.mp hx).elim (hold x) (Swept.of_mem_ownedSubtree h ht)
      · induction hx with
        | @top b' t' hmem hown' =>
          rcases List.mem_append.mp hmem with hmem | hmem
          · exact List.mem_append_left _ ((hl t').mpr (.top hmem hown'))
          · obtain ⟨rfl, rfl⟩ : b' = b ∧ t' = t := by simpa using hmem
            obtain ⟨n, hn, -⟩ := isOwnedBy_iff.mp hown
            exact List.mem_append_right _ (self_mem_ownedSubtree (isLive_iff.mpr ⟨n, hn⟩))
        | @child p x _ hx ih =>
          by_cases hpl : p ∈ l
          · exact List.mem_append_left _ ((hl x).mpr (((hl p).mp hpl).child hx))
          · by_cases hxl : x ∈ l
            · exact List.mem_append_left _ hxl
            · have hp := (List.mem_append.mp ih).resolve_left hpl
              exact List.mem_append_right _ (ownedSubtree_child (h.older.foldl_evict l) hp
                (mem_ownedChildren_foldl_evict h hpl hxl hx))
    · next hown =>
      refine ⟨l, rfl, fun x ↦ ⟨hold x, fun hx ↦ ?_⟩⟩
      induction hx with
      | @top b' t' hmem hown' =>
        rcases List.mem_append.mp hmem with hmem | hmem
        · exact (hl t').mpr (.top hmem hown')
        · obtain ⟨rfl, rfl⟩ : b' = b ∧ t' = t := by simpa using hmem
          exact not_not.mp fun htl ↦ hown (isOwnedBy_foldl_evict htl hown')
      | @child p x _ hx ih => exact (hl x).mpr (((hl p).mp ih).child hx)

theorem StoreFits.reset (h : d.StoreFits b s) : d.StoreFits b s.reset := by
  obtain ⟨l, hp, hl⟩ := s.nodes_reset
  refine h.of_subset (Store.nodup_reset h.nodup) (fun x hx ↦ hl.subset (hp.mem_iff.mp hx)) ?_
  intro e he
  obtain ⟨e₀, -, -, rfl⟩ := Store.mem_reset he
  simp [Entry.revert]

namespace Linked

theorem resetStores (h : Linked d) : Linked d.resetStores :=
  List.foldlRecOn (motive := Linked) _ _ h fun _ hd b _ ↦
    hd.modifyStore fun s hs ↦ (hd.store b s hs).reset

theorem releaseAll (h : Linked d) (discarded : List (NodeId × NodeId)) :
    Linked (d.releaseAll discarded) := by
  induction discarded generalizing d with
  | nil => exact h
  | cons bt discarded ih =>
    obtain ⟨b, t⟩ := bt
    refine ih (d := if d.isOwnedBy t b then d.release t else d) ?_
    split
    · next ho =>
      obtain ⟨n, hn, hp⟩ := isOwnedBy_iff.mp ho
      exact h.release (h.ne_root_of_parent hn hp)
    · exact h

theorem settleNodes (h : Linked d) : Linked d.settleNodes := by
  have hnode : ∀ x n', d.settleNodes.node? x = some n' →
      ∃ n, d.node? x = some n ∧ n' = n.settledAt x := by
    intro x n' hn'
    simp only [Document.settleNodes, Document.node?, Table.get?_map] at hn'
    obtain ⟨n, hn, rfl⟩ := Option.map_eq_some_iff.mp hn'
    exact ⟨n, hn, rfl⟩
  have hnext : d.settleNodes.nextId = d.nextId := Table.size_map ..
  refine ⟨h.sizes.trans hnext.symm, fun i ↦ ?_, fun x n' hn' ↦ ?_, fun b s hs ↦ ?_, ?_, h.sources⟩
  · rw [show d.settleNodes.store? i = d.store? i from rfl, h.keyed]
    simp only [Document.settleNodes, Document.node?, Table.get?_map]
    cases d.nodes.get? i <;> rfl
  · obtain ⟨n, hn, rfl⟩ := hnode x n' hn'
    have hfit := h.node x n hn
    exact ⟨hfit.older, hfit.distinct, hfit.foreign, by simp [Node.settledAt, Node.scanEdges]⟩
  · refine (h.store b s hs).mono fun x ↦ Links.mono (Nat.le_of_eq hnext.symm) fun n' hn' _ ↦ ?_
    obtain ⟨n, hn, rfl⟩ := hnode x n' hn'
    exact ⟨n, hn, rfl, fun _ hx ↦ hx⟩
  · obtain ⟨n, hn, hrest⟩ := h.root
    refine ⟨n.settledAt Document.root, ?_, hrest⟩
    simp only [Document.settleNodes, Document.node?, Table.get?_map]
    rw [show d.nodes.get? Document.root = some n from hn]
    rfl

theorem reset (h : Linked d) : Linked d.reset := by
  rw [reset_eq]
  exact (h.resetStores.releaseAll _).settleNodes

end Linked

/-- A reset puts back the stores, takes nodes out and settles the others. -/
theorem reset_eq_evict (h : Linked d) :
    ∃ l : List NodeId, d.reset = (l.foldl evict d.resetStores).settleNodes := by
  obtain ⟨l, hl, -⟩ := releaseAll_swept h.resetStores (d.discards d.stores.ids)
  exact ⟨l, by rw [reset_eq, hl]⟩

theorem store?_of_reset (h : Linked d) (hs : d.reset.store? b = some s) :
    ∃ s₀, d.store? b = some s₀ ∧ s.baseline = s₀.reset.baseline ∧
      s.entries.Sublist s₀.reset.entries := by
  obtain ⟨l, hl⟩ := reset_eq_evict h
  rw [hl] at hs
  have hs' : (l.foldl evict d.resetStores).store? b = some s := hs
  obtain ⟨s₁, hs₁, hbase, hsub⟩ := store?_foldl_evict_sublist h.resetStores.distinct hs'
  rw [store?_resetStores] at hs₁
  obtain ⟨s₀, hs₀, rfl⟩ := Option.map_eq_some_iff.mp hs₁
  exact ⟨s₀, hs₀, hbase, hsub⟩

end Document

end BuildScript
