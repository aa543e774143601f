import BuildScript.Document.Snapshot
import BuildScript.Proofs.Changes.Merge
import BuildScript.Proofs.Changes.Run
import BuildScript.Proofs.Reachable
import Mathlib.Logic.Relation

namespace BuildScript

namespace Document

variable {C : NodeId → NodeId → Prop} {d d' : Document} {b c o p t x y : NodeId} {n : Node}
  {s : Store} {e : Entry} {edit : Edit}

def Contains (d : Document) (c x : NodeId) : Prop := ∃ s, d.store? c = some s ∧ x ∈ s.nodes

def Acyclic (d : Document) : Prop := ∀ x, ¬ Relation.TransGen d.Contains x x

theorem contains_of_mem (hs : d.store? c = some s) (he : e ∈ s.entries) (hx : e.node = x) :
    d.Contains c x :=
  ⟨s, hs, hx ▸ Store.mem_nodes_of_mem he⟩

theorem contains_of_entries (he : e ∈ d.entries c) : d.Contains c e.node := by
  unfold entries at he
  split at he
  · next hs => exact contains_of_mem hs he rfl
  · simp at he

theorem Contains.lt (h : Linked d) (hc : d.Contains c x) : c < d.nextId ∧ x < d.nextId := by
  obtain ⟨s, hs, hx⟩ := hc
  exact ⟨h.lt_of_store? hs, ((h.store c s hs).links x hx).1⟩

theorem contains_of_push (h : Linked d) (hc : (d.push n).Contains c x) : d.Contains c x := by
  obtain ⟨s, hs, hx⟩ := hc
  obtain ⟨e, he, rfl⟩ := List.mem_map.mp hx
  exact ⟨s, store?_of_mem_push h.sizes hs he, hx⟩

theorem contains_of_add {state : EntryState} {existsInSource : Bool}
    (hc : (d.modifyStore b (·.add t state existsInSource)).Contains c x) :
    d.Contains c x ∨ c = b ∧ x = t := by
  obtain ⟨s', hs', hx⟩ := hc
  obtain ⟨e, he, rfl⟩ := List.mem_map.mp hx
  rcases mem_store?_add hs' he with ⟨s, hs, he₀⟩ | ⟨hb, rfl⟩
  · exact .inl (contains_of_mem hs he₀ rfl)
  · exact .inr ⟨hb, rfl⟩

theorem contains_of_lend (hc : (d.lend b t).Contains c x) : d.Contains c x ∨ c = b ∧ x = t :=
  contains_of_add hc

theorem OnlyUnstages.contains (h : OnlyUnstages C d d') (hc : d'.Contains c x) :
    d.Contains c x := by
  obtain ⟨s', hs', hx⟩ := hc
  obtain ⟨e', he', rfl⟩ := List.mem_map.mp hx
  obtain ⟨s, e, hs, he, hunstages⟩ := h.entry c s' e' hs' he'
  exact contains_of_mem hs he hunstages.node.symm

namespace Acyclic

/-- New edges into a region do no harm if no edge leaves it and ids grow inside it. -/
theorem region {N : NodeId → Prop} (h : Acyclic d)
    (hin : ∀ a x, N a → d'.Contains a x → N x ∧ a < x)
    (hout : ∀ a x, ¬ N x → d'.Contains a x → d.Contains a x) : Acyclic d' := by
  have hgrow : ∀ a x, N a → Relation.TransGen d'.Contains a x → N x ∧ a < x := by
    intro a x ha hx
    induction hx with
    | single hc => exact hin a _ ha hc
    | tail _ hc ih =>
      obtain ⟨hN, hlt⟩ := hin _ _ ih.1 hc
      exact ⟨hN, Nat.lt_trans ih.2 hlt⟩
  -- a path to a node outside of the region has never been inside
  have hold :
      ∀ a x, ¬ N x → Relation.TransGen d'.Contains a x → Relation.TransGen d.Contains a x := by
    intro a x hx hax
    induction hax using Relation.TransGen.head_induction_on with
    | single hc => exact .single (hout _ _ hx hc)
    | head hc hrest ih =>
      have hN := fun hN ↦ hx (hgrow _ _ hN hrest).1
      exact .head (hout _ _ hN hc) ih
  intro x hx
  by_cases hN : N x
  · exact Nat.lt_irrefl x (hgrow x x hN hx).2
  · exact h x (hold x x hN hx)

theorem mono (h : Acyclic d) (hc : ∀ a x, d'.Contains a x → d.Contains a x) : Acyclic d' :=
  h.region (N := fun _ ↦ False) (fun _ _ hN _ ↦ hN.elim) fun a x _ ↦ hc a x

theorem altered (h : Acyclic d) (hl : Linked d') (ha : Alters d edit d')
    (hd : Linked d) : Acyclic d' := by
  have hentry : ∀ a x, d'.Contains a x → d.Contains a x ∨
      d.nextId ≤ x ∧ (d'.isOwnedBy x a ∨ (d.store? a).isSome) := by
    intro a x ⟨s', hs', hx⟩
    obtain ⟨e', he', rfl⟩ := List.mem_map.mp hx
    cases ha.entry a s' e' hs' he' with
    | kept hs he => exact .inl (contains_of_mem hs he rfl)
    | @withdrawn s e hs he => exact .inl (contains_of_mem hs he e.withdraw_node.symm)
    | hidden hs he => exact .inl (contains_of_mem hs he rfl)
    | @moved s e hs he => exact .inl (contains_of_mem hs he (Store.relocated_node e).symm)
    | parsed _ hle ho => exact .inr ⟨hle, .inl ho⟩
    | staged _ hle ho => exact .inr ⟨hle, .inl ho⟩
    | replacing _ _ _ _ hs => exact .inr ⟨Nat.le_refl _, .inr (by simp [hs])⟩
  refine h.region (N := fun x ↦ d.nextId ≤ x) (fun a x ha hx ↦ ?_) fun a x hx hc ↦ ?_
  · have hnew : d.store? a = none := hd.store?_of_node?_eq_none (node?_of_le ha)
    rcases hentry a x hx with ⟨s, hs, -⟩ | ⟨hle, hown | hsome⟩
    · simp [hnew] at hs
    · obtain ⟨n, hn, hp⟩ := isOwnedBy_iff.mp hown
      exact ⟨hle, hl.older x n a hn hp⟩
    · simp [hnew] at hsome
  · exact (hentry a x hc).resolve_right fun ⟨hle, _⟩ ↦ hx hle

theorem onlyUnstages (h : Acyclic d) (hc : OnlyUnstages C d d') : Acyclic d' :=
  h.mono fun _ _ ↦ hc.contains

theorem reset (h : Acyclic d) (hl : Linked d) : Acyclic d.reset := by
  refine h.mono fun a x ⟨s', hs', hx⟩ ↦ ?_
  obtain ⟨e', he', rfl⟩ := List.mem_map.mp hx
  obtain ⟨s, e, hs, he, -, rfl⟩ := mem_reset hl hs' he'
  exact contains_of_mem hs he rfl

theorem congr_stores (h : Acyclic d) (hs : d'.stores = d.stores) : Acyclic d' :=
  h.mono fun a x ⟨s, hs', hx⟩ ↦ ⟨s, by simpa only [Document.store?, hs] using hs', hx⟩

theorem push (h : Acyclic d) (hl : Linked d) (n : Node) : Acyclic (d.push n) :=
  h.mono fun _ _ ↦ contains_of_push hl

theorem enroll (h : Acyclic d) (hl : Linked d) (hs : d.store? b = some s) (n : Node) :
    Acyclic (d.enroll b n) := by
  refine (h.push hl n).region (N := (· = d.nextId)) (fun a x ha hx ↦ ?_) fun a x hx hc ↦ ?_
  · subst ha
    rcases contains_of_add hx with hc | ⟨rfl, -⟩
    · exact absurd ((contains_of_push hl hc).lt hl).1 (Nat.lt_irrefl _)
    · exact absurd (hl.lt_of_store? hs) (Nat.lt_irrefl _)
  · exact (contains_of_add hc).resolve_right fun ⟨_, he⟩ ↦ hx he

/-- Nothing leads from a lendable node to the block that borrows it. -/
theorem lend (h : Acyclic d) (hl : Linked d) (ht : Lendable d b t) : Acyclic (d.lend b t) := by
  refine h.region (N := Below d t) (fun a x ha hx ↦ ?_) fun a x hx hc ↦ ?_
  · rcases contains_of_lend hx with ⟨s, hs, hmem⟩ | ⟨rfl, -⟩
    · obtain ⟨n, hn, hp⟩ := ht.own a s x ha hs hmem
      exact ⟨ha.step hn hp, hl.older x n a hn hp⟩
    · exact absurd ha ht.apart
  · refine (contains_of_lend hc).resolve_right fun ⟨_, he⟩ ↦ hx ?_
    rw [he]
    exact .refl

theorem release (h : Acyclic d) (hl : ∀ x n, d.node? x = some n → n.holders.Nodup) (o : NodeId) :
    Acyclic (d.release o) := by
  refine h.mono fun a x ⟨s', hs', hx⟩ ↦ ?_
  obtain ⟨s, hs, -, hsub⟩ := store?_foldl_evict_sublist hl hs'
  exact ⟨s, hs, (hsub.map Entry.node).subset hx⟩

theorem supersede (h : Acyclic d) (hl : Linked d) (source : DocumentId) :
    Acyclic (d.supersede source).2 := by
  unfold Document.supersede
  split
  · exact h
  · next o ho =>
    exact Acyclic.release (d := { d with
      overlaySources := d.overlaySources.filter (·.1 != source)
      overlays := d.overlays.filter (· != o) }) h hl.distinct o

theorem withOverlay (h : Acyclic d) (hl : Linked d) (other : Document) :
    Acyclic (d.withOverlay other) := by
  refine (withOverlay_induction (C := Acyclic) (M := Acyclic) hl other
    ((h.supersede hl other.id).push (hl.supersede other.id) overlayNode)
    (fun d' target i n s hd _ hQ _ hs _ ↦ hQ.enroll hd hs _) fun d' hd _ hQ ↦ ?_).2.2
  have ha : Alike d' (d'.recordEdges (d.overlayId other)) := .recordEdges _ _
  refine hQ.mono fun a x ⟨s, hs, hx⟩ ↦ ⟨s, ?_, hx⟩
  exact (ha.store? a).symm.trans hs

theorem merge (h : Acyclic d) (hl : Linked d) (other : Document) : Acyclic (d.merge other).2 := by
  obtain ⟨hw, hf⟩ := withOverlay_spec hl other
  refine (merge_of_withOverlay (M := Acyclic) hl other ⟨hw, hf, h.withOverlay hl other⟩ ?_ ?_).2
  · intro d' b t n p hd hQ _ _ _ _ _ _ ht
    exact hQ.lend hd ht
  · intro d' b name kind hd hQ hs
    obtain ⟨s, hs⟩ := Option.isSome_iff_exists.mp hs
    exact hQ.enroll hd hs _

end Acyclic

theorem Reached.acyclic {allowed : Document → Edit → Prop} (hd : Reached allowed d) :
    Acyclic d := by
  induction hd with
  | new id config =>
    intro x hx
    obtain ⟨y, ⟨s, hs, hy⟩, -⟩ := Relation.TransGen.head'_iff.mp hx
    exact not_mem_nodes_new hs hy
  | edit edit hd _ ih => exact ih.altered (hd.linked.edit edit) (alters hd.linked edit) hd.linked
  | reset hd ih => exact ih.reset hd.linked
  | apply w s hd ih => exact ih.onlyUnstages (OnlyUnstages.apply hd.linked w s)
  | merge other hd ih => exact ih.merge hd.linked other
  | takeDiagnostics _ ih => exact ih.congr_stores rfl

def Shallow (d : Document) (k : Nat) (id : NodeId) : Prop :=
  ∀ l, (id :: l).IsChain d.Contains → l.length < k

namespace Shallow

variable {k fuel fuel' : Nat} {id : NodeId}

theorem pos (h : d.Shallow k id) : ∃ k', k = k' + 1 :=
  Nat.exists_eq_succ_of_ne_zero (Nat.ne_zero_of_lt (h [] (.singleton id)))

theorem below (h : d.Shallow (k + 1) id) (hc : d.Contains id x) : d.Shallow k x := by
  intro l hl
  have hlen := h (x :: l) (.cons_cons hc hl)
  rw [List.length_cons] at hlen
  omega

theorem mono (h : d.Shallow k id) (hc : ∀ a x, d'.Contains a x → d.Contains a x) :
    d'.Shallow k id :=
  fun l hl ↦ h l (hl.imp fun a x ↦ hc a x)

theorem acc (h : d.Shallow k id) : Acc (fun x c ↦ d.Contains c x) id := by
  induction k generalizing id with
  | zero => exact absurd h.pos (by simp)
  | succ k ih => exact ⟨id, fun x hx ↦ ih (h.below hx)⟩

end Shallow

theorem Acyclic.chain_nodup (h : Acyclic d) {l : List NodeId} (hl : l.IsChain d.Contains) :
    l.Nodup := by
  have hpath : l.IsChain (Relation.TransGen d.Contains) := hl.imp fun _ _ hc ↦ .single hc
  refine hpath.pairwise.imp fun {a x} hax he ↦ ?_
  subst he
  exact h a hax

theorem chain_lt (h : Linked d) {a : NodeId} {l : List NodeId}
    (hl : (a :: x :: l).IsChain d.Contains) : ∀ y ∈ a :: x :: l, y < d.nextId := by
  induction l generalizing a x with
  | nil =>
    obtain ⟨ha, hx⟩ := (List.isChain_cons_cons.mp hl).1.lt h
    simp [ha, hx]
  | cons z l ih =>
    obtain ⟨hax, hrest⟩ := List.isChain_cons_cons.mp hl
    intro y hy
    rcases List.mem_cons.mp hy with rfl | hy
    · exact (hax.lt h).1
    · exact ih hrest y hy

theorem Acyclic.chain_length_le (h : Acyclic d) (hl : Linked d) {l : List NodeId}
    (hc : l.IsChain d.Contains) : l.length ≤ d.nodes.size := by
  match l with
  | [] => exact Nat.zero_le _
  | [x] =>
    obtain ⟨n, hn, -⟩ := hl.root
    exact Nat.lt_of_le_of_lt (Nat.zero_le root) (lt_nextId hn)
  | a :: x :: l =>
    have hsub : a :: x :: l ⊆ List.range d.nodes.size := fun y hy ↦
      List.mem_range.mpr (chain_lt hl hc y hy)
    simpa using (List.subperm_of_subset (h.chain_nodup hc) hsub).length_le

theorem Acyclic.shallow (h : Acyclic d) (hl : Linked d) (id : NodeId) : d.Shallow d.nodes.size id :=
  fun _ hc ↦ h.chain_length_le hl hc

namespace Shallow

variable {k fuel fuel' : Nat} {id : NodeId}

/-- To prove that two amounts of fuel do alike, do it one level down. -/
theorem fuel_induction {motive : Nat → Nat → NodeId → Prop}
    (step : ∀ fuel fuel' id, (∀ x, d.Contains id x → motive fuel fuel' x) →
      motive (fuel + 1) (fuel' + 1) id)
    (h : d.Shallow k id) (hf : k ≤ fuel) (hf' : k ≤ fuel') : motive fuel fuel' id := by
  induction k generalizing id fuel fuel' with
  | zero => exact absurd h.pos (by simp)
  | succ k ih =>
    obtain ⟨fuel, rfl⟩ := Nat.exists_eq_add_of_lt hf
    obtain ⟨fuel', rfl⟩ := Nat.exists_eq_add_of_lt hf'
    refine step _ _ id fun x hx ↦ ih (h.below hx) ?_ ?_ <;> omega

theorem snapshotWithin_eq (h : d.Shallow k id) (hf : k ≤ fuel) (hf' : k ≤ fuel') :
    d.snapshotWithin fuel id = d.snapshotWithin fuel' id := by
  refine h.fuel_induction (motive := fun f f' id ↦ d.snapshotWithin f id = d.snapshotWithin f' id)
    (fun f f' id ih ↦ ?_) hf hf'
  rw [snapshotWithin, snapshotWithin]
  congr 2
  funext n
  congr 1
  refine List.filterMap_congr fun e he ↦ ih e.node ?_
  exact contains_of_entries (List.mem_filter.mp he).1

theorem containedWithin_eq (withProperties : Bool) (h : d.Shallow k id) (hf : k ≤ fuel)
    (hf' : k ≤ fuel') :
    d.containedWithin withProperties fuel id = d.containedWithin withProperties fuel' id := by
  refine h.fuel_induction (motive := fun f f' id ↦
    d.containedWithin withProperties f id = d.containedWithin withProperties f' id)
    (fun f f' id ih ↦ ?_) hf hf'
  rw [containedWithin, containedWithin]
  refine List.flatMap_congr fun e he ↦ ?_
  rw [ih e.node (contains_of_entries (List.mem_filter.mp he).1)]

theorem dependenciesWithin_eq (h : d.Shallow k id) (hf : k ≤ fuel) (hf' : k ≤ fuel') :
    d.dependenciesWithin fuel id = d.dependenciesWithin fuel' id := by
  refine h.fuel_induction (motive := fun f f' id ↦
    d.dependenciesWithin f id = d.dependenciesWithin f' id) (fun f f' id ih ↦ ?_) hf hf'
  rw [dependenciesWithin, dependenciesWithin]
  have hrest : ((d.entries id).filter (·.isOwnVisible)).flatMap (d.dependenciesWithin f ·.node) =
      ((d.entries id).filter (·.isOwnVisible)).flatMap (d.dependenciesWithin f' ·.node) :=
    List.flatMap_congr fun e he ↦ ih e.node (contains_of_entries (List.mem_filter.mp he).1)
  rw [hrest]

theorem subtree_eq (h : d.Shallow k id) (hf : k ≤ fuel) (hf' : k ≤ fuel') :
    d.subtree fuel id = d.subtree fuel' id := by
  refine h.fuel_induction (motive := fun f f' id ↦ d.subtree f id = d.subtree f' id)
    (fun f f' id ih ↦ ?_) hf hf'
  rw [subtree, subtree]
  congr 1
  exact List.flatMap_congr fun x hx ↦ ih x (mem_ownedChildren.mp hx).1

end Shallow

theorem lineageWithin_of_dead (h : d.node? x = none) (fuel : Nat) :
    d.lineageWithin fuel x = [] := by
  cases fuel <;> simp [lineageWithin, h]

theorem Older.lineageWithin_eq {fuel fuel' : Nat} (ho : d.Older) (hf : x < fuel) (hf' : x < fuel') :
    d.lineageWithin fuel x = d.lineageWithin fuel' x := by
  induction fuel generalizing x fuel' with
  | zero => exact absurd hf (Nat.not_lt_zero x)
  | succ fuel ih =>
    obtain ⟨fuel', rfl⟩ := Nat.exists_eq_succ_of_ne_zero (Nat.ne_zero_of_lt hf')
    rw [lineageWithin, lineageWithin]
    cases hn : d.node? x with
    | none => rfl
    | some n =>
      cases hp : n.parent with
      | none => simp only [hp]
      | some p =>
        have hlt := ho x n p hn hp
        have hrest : d.lineageWithin fuel p = d.lineageWithin fuel' p :=
          ih (Nat.lt_of_lt_of_le hlt (Nat.le_of_lt_succ hf))
            (Nat.lt_of_lt_of_le hlt (Nat.le_of_lt_succ hf'))
        simp only [hp, hrest]

end Document

namespace Run

open Document

variable {σ : Type} {w : Writer σ} {b id : NodeId} {r : Run σ} {k fuel fuel' : Nat}

theorem flush_congr {inner inner' : NodeId → Run σ → Run σ} (b : NodeId)
    (h : inner id { r with clean := true } = inner' id { r with clean := true }) :
    r.flush w inner b id = r.flush w inner' b id := by
  simp only [flush, h]

theorem foldl_flush_congr
    (ih : ∀ id (r : Run σ), Linked r.document → r.document.Shallow k id →
      r.block w fuel id = r.block w fuel' id) (l : List NodeId) (h : Linked r.document)
    (hl : ∀ id ∈ l, r.document.Shallow k id) :
    l.foldl (flush w (block w fuel) b) r = l.foldl (flush w (block w fuel') b) r := by
  induction l generalizing r with
  | nil => rfl
  | cons id l ihl =>
    have hstep : r.flush w (block w fuel) b id = r.flush w (block w fuel') b id :=
      flush_congr b (ih id { r with clean := true } h (hl id List.mem_cons_self))
    have hunstages : Continues r (r.flush w (block w fuel') b id) :=
      .flush b id (.block w fuel' id _ h)
    rw [List.foldl_cons, List.foldl_cons, hstep]
    refine ihl (h.flush b id fun i r' h' ↦ h'.block w fuel' i) fun i hi ↦ ?_
    exact (hl i (List.mem_cons_of_mem _ hi)).mono fun _ _ ↦ hunstages.onlyUnstages.contains

/-- Blocks only lose entries while they are written, so what is shallow stays so. -/
theorem block_eq_of_shallow (h : Linked r.document) (hs : r.document.Shallow k b) (hf : k ≤ fuel)
    (hf' : k ≤ fuel') : r.block w fuel b = r.block w fuel' b := by
  induction k generalizing r b fuel fuel' with
  | zero => exact absurd hs.pos (by simp)
  | succ k ih =>
    obtain ⟨fuel, rfl⟩ := Nat.exists_eq_add_of_lt hf
    obtain ⟨fuel', rfl⟩ := Nat.exists_eq_add_of_lt hf'
    obtain ⟨h₁, hdel, -⟩ := Continues.deletions (w := w) h b
    obtain ⟨h₂, hcre, -⟩ := Continues.creations (w := w) h₁ b
    have hflush : ((r.deletions w b).creations w b).flushes w (k + fuel) b =
        ((r.deletions w b).creations w b).flushes w (k + fuel') b := by
      refine foldl_flush_congr (k := k) (fun id r h hs ↦ ih h hs (by omega) (by omega)) _ h₂
        fun id hid ↦ ?_
      obtain ⟨s, hs', e, he, -, rfl⟩ := mem_placeable.mp hid
      exact ((hs.mono fun _ _ ↦ (hdel.trans hcre).onlyUnstages.contains).below
        (contains_of_mem hs' he rfl))
    rw [block_succ, block_succ, phases, phases, hflush]

end Run

namespace Document

variable {d : Document}

/-- From this node no recursion goes deeper than the fuel lets it: more of it changes nothing. -/
structure Exhausts (d : Document) (fuel : Nat) (id : NodeId) : Prop where
  snapshot : d.snapshotWithin fuel id = d.snapshotOf id
  contained : ∀ withProperties,
    d.containedWithin withProperties fuel id = d.containedElements id withProperties
  dependencies : d.dependenciesWithin fuel id = d.dependencies id
  subtree : d.isLive id → d.subtree fuel id = d.ownedSubtree id
  lineage : d.lineageWithin fuel id = d.lineage id
  block : ∀ {σ : Type} (w : Writer σ) (r : Run σ), r.document = d →
    r.block w fuel id = r.block w d.nodes.size id

theorem Acyclic.exhausts (h : Acyclic d) (hl : Linked d) {fuel : Nat} (hf : d.nodes.size ≤ fuel)
    (id : NodeId) : d.Exhausts fuel id := by
  have hs := h.shallow hl id
  refine ⟨hs.snapshotWithin_eq hf (Nat.le_refl _),
    fun b ↦ hs.containedWithin_eq b hf (Nat.le_refl _),
    hs.dependenciesWithin_eq hf (Nat.le_refl _), fun hlive ↦ ?_, ?_, fun w r hr ↦ ?_⟩
  · rw [ownedSubtree, if_pos hlive]
    exact hs.subtree_eq hf (Nat.le_refl _)
  · by_cases hid : id < d.nodes.size
    · exact hl.older.lineageWithin_eq (Nat.lt_of_lt_of_le hid hf) hid
    · have hdead : d.node? id = none := node?_of_le (Nat.not_lt.mp hid)
      rw [lineage, lineageWithin_of_dead hdead, lineageWithin_of_dead hdead]
  · subst hr
    exact Run.block_eq_of_shallow hl hs hf (Nat.le_refl _)

/-- The containment graph of a document has no cycle, whatever has been done to the document, and
parents are older than their children. So a path down has no more nodes than there are numbers, and
neither the recursions along entries nor the walks along parents run out of fuel. -/
theorem containment_wellFounded (hd : d.Reachable) :
    (∀ x, ¬ Relation.TransGen d.Contains x x) ∧
    (∀ x n p, d.node? x = some n → n.parent = some p → p < x) ∧
    (WellFounded fun x c ↦ d.Contains c x) ∧
    (∀ l : List NodeId, l.IsChain d.Contains → l.length ≤ d.nodes.size) ∧
    ∀ fuel id, d.nodes.size ≤ fuel → d.Exhausts fuel id := by
  have h := hd.acyclic
  refine ⟨h, hd.linked.older, ⟨fun id ↦ (h.shallow hd.linked id).acc⟩,
    fun l hl ↦ h.chain_length_le hd.linked hl, fun fuel id hf ↦ h.exhausts hd.linked hf id⟩

def themeDocument (id : String) (children : List Spec) : Document :=
  ((Edit.addParsed root { name := ⟨["theme"]⟩, kind := .block "theme", children }).run
    (.new ⟨id⟩ {})).2

/-- Two documents merged and merged again. The fonts go into the block that the overlay of the
colours lends to the root: there they get a block of their own, which borrows from older nodes. -/
def remergedDocument : Document :=
  let colours := themeDocument "colours" [.literal ⟨["text"]⟩ (.string "black")]
  let fonts := themeDocument "fonts"
    [{ name := ⟨["title"]⟩, kind := .block "font",
       children := [.literal ⟨["size"]⟩ (.integer 12)] }]
  let empty := Document.new ⟨"app"⟩
    { kindOf := fun name _ ↦ if name = "title" then some "font" else none }
  ((((empty.merge colours).2.merge fonts).2.merge colours).2.merge fonts).2

theorem containment_wellFounded_remerged :
    remergedDocument.Reachable ∧ (∀ x, ¬ Relation.TransGen remergedDocument.Contains x x) ∧
      ∀ id, remergedDocument.Exhausts (remergedDocument.nodes.size + 1) id := by
  have hd : remergedDocument.Reachable :=
    .merge _ (.merge _ (.merge _ (.merge _ (.new ⟨"app"⟩ _))))
  obtain ⟨hacyclic, -, -, -, hfuel⟩ := containment_wellFounded hd
  exact ⟨hd, hacyclic, fun id ↦ hfuel _ id (Nat.le_succ _)⟩

end Document

end BuildScript
