import BuildScript.Proofs.Apply.Turns
import BuildScript.Proofs.Document.Views
import BuildScript.Proofs.Reachable
import BuildScript.Proofs.Replay.Order

namespace BuildScript

theorem Log.refusedCreations_concat {call : Call} {refusal : Option String} (log : Log)
    (h : call.step ≠ .create ∨ refusal = none) :
    refusedCreations (log ++ [(call, refusal)]) = refusedCreations log := by
  have hnone : refusedCreations [(call, refusal)] = [] := by
    refine List.filterMap_eq_nil_iff.mpr fun p hp ↦ ?_
    cases List.mem_singleton.mp hp
    exact if_neg fun ⟨hs, hr⟩ ↦ h.elim (· hs) hr
  rw [refusedCreations_append, hnone, List.append_nil]

theorem Store.pair_sublist {s : Store} {ahead behind : List Entry} {e x : Entry}
    (hs : s.entries = ahead ++ e :: behind) (hx : x ∈ ahead) :
    [x.node, e.node].Sublist s.nodes := by
  rw [Store.nodes, hs, List.map_append, List.map_cons]
  exact (List.singleton_sublist.mpr (List.mem_map.mpr ⟨x, hx, rfl⟩)).append
    (List.singleton_sublist.mpr List.mem_cons_self)

theorem Store.takeWhile_ahead {ahead behind : List Entry} {e : Entry} {id : NodeId}
    (he : e.node = id) (hne : ∀ x ∈ ahead, x.node ≠ id) :
    (ahead ++ e :: behind).takeWhile (·.node != id) = ahead := by
  rw [List.takeWhile_append_of_pos (by simpa using hne), List.takeWhile_cons_of_neg
    (by simpa using he), List.append_nil]

namespace Entry.IsLast

variable {P Q : Entry → Prop} {l : List Entry} {e : Entry}

theorem mem (h : e.IsLast P l) : e ∈ l := by
  obtain ⟨before, after, rfl, -, -⟩ := h
  simp

theorem congr (h : e.IsLast P l) (hPQ : ∀ x ∈ l, P x ↔ Q x) : e.IsLast Q l := by
  obtain ⟨before, after, rfl, hp, hafter⟩ := h
  refine ⟨before, after, rfl, (hPQ e (by simp)).mp hp, fun x hx hq ↦ ?_⟩
  exact hafter x hx ((hPQ x (by simp [hx])).mpr hq)

end Entry.IsLast

namespace Document

variable {d d' d'' : Document} {a b id : NodeId} {name : Name} {x : Entry}

/-- The entries of a block come in the order in which they have been, as far as they are left. -/
def Thinned (b : NodeId) (d d' : Document) : Prop :=
  ∀ s', d'.store? b = some s' → ∃ s, d.store? b = some s ∧ s'.nodes.Sublist s.nodes

namespace Thinned

theorem refl (b : NodeId) (d : Document) : Thinned b d d := fun s hs ↦ ⟨s, hs, .refl _⟩

theorem trans (h : Thinned b d d') (h' : Thinned b d' d'') : Thinned b d d'' := by
  intro s'' hs''
  obtain ⟨s', hs', hsub'⟩ := h' s'' hs''
  obtain ⟨s, hs, hsub⟩ := h s' hs'
  exact ⟨s, hs, hsub'.trans hsub⟩

theorem modifyStore (d : Document) (b : NodeId) {f : Store → Store}
    (hf : ∀ s, (f s).nodes.Sublist s.nodes) : Thinned b d (d.modifyStore b f) := by
  intro s' hs'
  rw [store?_modifyStore, if_pos rfl] at hs'
  obtain ⟨s, hs, rfl⟩ := Option.map_eq_some_iff.mp hs'
  exact ⟨s, hs, hf s⟩

theorem release (h : Linked d) (b id : NodeId) : Thinned b d (d.release id) := by
  intro s' hs'
  obtain ⟨s, hs, -, hsub⟩ := store?_foldl_evict_sublist h.distinct hs'
  exact ⟨s, hs, hsub.map _⟩

theorem create {σ : Type} {w : Writer σ} {r : Run σ} (h : Linked r.document) (b id : NodeId) :
    Thinned b r.document (r.create w b id).document := by
  have hd := Run.creation w b id r
  generalize r.create w b id = r' at hd
  cases hd with
  | dead => exact .refl b _
  | refused =>
    exact (modifyStore _ b fun s ↦ s.nodes_purge_sublist id).trans (.release (h.purge b id) b id)
  | created range =>
    refine modifyStore _ b fun s ↦ ?_
    rw [Store.nodes_modifyEntry (f := (·.createdAt range)) fun _ ↦ rfl]

theorem foldl_create {σ : Type} {w : Writer σ} {r : Run σ} {l : List NodeId}
    (h : Linked r.document) (hl : ∀ i ∈ l, i ≠ root) :
    Thinned b r.document (l.foldl (Run.create w b) r).document := by
  have hboth : Linked (l.foldl (Run.create w b) r).document ∧
      Thinned b r.document (l.foldl (Run.create w b) r).document :=
    List.foldlRecOn (motive := fun r' : Run σ ↦ Linked r'.document ∧
      Thinned b r.document r'.document) l _ ⟨h, .refl b _⟩
      fun _ ⟨h₁, ht⟩ i hi ↦ ⟨h₁.create b (hl i hi), ht.trans (.create h₁ b i)⟩
  exact hboth.2

end Thinned

theorem pair_sublist_inState {s : Store} {state : EntryState} {front back : List NodeId}
    {y : NodeId}
    (hs : d.store? b = some s) (hl : d.inState b state = front ++ id :: back) (hy : y ∈ back) :
    [id, y].Sublist s.nodes := by
  have hpair : [id, y].Sublist (d.inState b state) := by
    rw [hl]
    exact ((List.singleton_sublist.mpr hy).cons_cons id).trans (List.sublist_append_right _ _)
  rw [inState, hs] at hpair
  exact hpair.trans (List.filter_sublist.map _)

/-- What stands in front of a node in a block does not wait to be created, as far as it lives. -/
def CreatedUpTo (d : Document) (b id : NodeId) : Prop :=
  ∀ s ahead e behind, d.store? b = some s → s.entries = ahead ++ e :: behind → e.node = id →
    ∀ x ∈ ahead, x.state = .toBeAdded → d.node? x.node = none

def SameQualifier (d : Document) (name : Name) (e : Entry) : Prop :=
  ∃ m, d.node? e.node = some m ∧ m.name.qualifier = name.qualifier

/-- A node that another one can be written after: it lives, its only entry in the block is in the
text in front of the other one, and between the two there is no other one in the text with the
qualifier. -/
inductive InPlace (d : Document) (b : NodeId) : NodeId → NodeId → Prop
  | behind {s : Store} {n : Node} {ahead behind : List Entry} {e anchor : Entry} :
      d.store? b = some s → s.entries = ahead ++ e :: behind → d.node? e.node = some n →
      anchor.IsLast (fun x ↦ (x.state = .existing ∨ x.state = .moved) ∧
        d.SameQualifier n.name x) ahead →
      (∀ x ∈ s.entries, x.node = anchor.node → x = anchor) → InPlace d b e.node anchor.node

theorem InPlace.exists_node (h : InPlace d b id a) : ∃ m, d.node? a = some m := by
  cases h with
  | behind _ _ _ hlast =>
    obtain ⟨-, -, -, ⟨-, m, hm, -⟩, -⟩ := hlast
    exact ⟨m, hm⟩

/-- An anchor is the last entry in front of a node that has a place in the block's text and shares
the qualifier. -/
theorem anchor?_eq_some_iff : d.anchor? b id = some a ↔
    ∃ s n ahead e behind, ∃ anchor : Entry, d.store? b = some s ∧ d.node? id = some n ∧
      s.entries = ahead ++ e :: behind ∧ e.node = id ∧ (∀ x ∈ ahead, x.node ≠ id) ∧
      anchor.node = a ∧ anchor.IsLast (fun x ↦ x.isPlaceable ∧ d.SameQualifier n.name x) ahead := by
  have hiff : ∀ (n : Node) (x : Entry), (x.isPlaceable &&
      (d.node? x.node).any (·.name.qualifier == n.name.qualifier)) = true ↔
      x.isPlaceable ∧ d.SameQualifier n.name x := by
    simp [SameQualifier, Option.any_eq_true]
  simp only [anchor?, Option.bind_eq_bind, Option.bind_eq_some_iff, Option.ite_none_right_eq_some,
    Option.map_eq_some_iff, ← Entry.isLast_iff, hiff]
  constructor
  · intro ⟨s, hs, n, hn, hc, anchor, hlast, ha⟩
    obtain ⟨x, hx, hnode⟩ := List.mem_map.mp (Store.contains_iff.mp hc)
    obtain ⟨e, he⟩ : ∃ e, s.find? id = some e := by
      rw [← Option.isSome_iff_exists, Store.find?, List.find?_isSome]
      exact ⟨x, hx, by simpa using hnode⟩
    obtain ⟨ahead, behind, hsplit, hid, -, hne⟩ := Store.find?_split he
    rw [hsplit, Store.takeWhile_ahead hid hne] at hlast
    exact ⟨s, n, ahead, e, behind, anchor, hs, hn, hsplit, hid, hne, ha, hlast⟩
  · intro ⟨s, n, ahead, e, behind, anchor, hs, hn, hsplit, hid, hne, ha, hlast⟩
    have hc : s.contains id = true :=
      Store.contains_iff.mpr (hid ▸ Store.mem_nodes_of_mem (by simp [hsplit]))
    refine ⟨s, hs, n, hn, hc, anchor, ?_, ha⟩
    rwa [hsplit, Store.takeWhile_ahead hid hne]

theorem SameQualifier.isPlaceable_iff (h : d.SameQualifier name x)
    (hx : x.state = .toBeAdded → d.node? x.node = none) :
    x.isPlaceable ↔ x.state = .existing ∨ x.state = .moved := by
  have hne : x.state ≠ .toBeAdded := by
    intro hst
    obtain ⟨m, hm, -⟩ := h
    simp [hx hst] at hm
  revert hne
  cases hst : x.state <;> simp [Entry.isPlaceable, EntryState.isPlaceable, hst]

/-- Where everything in front of a node is created, its anchor is the node in place. -/
theorem anchor?_eq_some_iff_inPlace (h : Linked d) (hc : CreatedUpTo d b id) :
    d.anchor? b id = some a ↔ InPlace d b id a := by
  have hwritten : ∀ {s n ahead e behind}, d.store? b = some s → s.entries = ahead ++ e :: behind →
      e.node = id → ∀ x ∈ ahead, (x.isPlaceable ∧ d.SameQualifier n x ↔
        (x.state = .existing ∨ x.state = .moved) ∧ d.SameQualifier n x) := by
    intro s n ahead e behind hs hsplit hid x hx
    exact and_congr_left fun hkin ↦ hkin.isPlaceable_iff (hc s ahead e behind hs hsplit hid x hx)
  rw [anchor?_eq_some_iff]
  constructor
  · intro ⟨s, n, ahead, e, behind, anchor, hs, hn, hsplit, hid, _, ha, hlast⟩
    subst hid ha
    refine .behind hs hsplit hn (hlast.congr (hwritten hs hsplit rfl)) fun x hx hnode ↦ ?_
    have hmem : anchor ∈ s.entries := by simp [hsplit, hlast.mem]
    exact Store.eq_of_node_eq (h.store b s hs).nodup hx hmem hnode
  · intro hplace
    cases hplace with
    | @behind s n ahead behind e anchor hs hsplit hn hlast =>
      refine ⟨s, n, ahead, e, behind, anchor, hs, hn, hsplit, rfl, fun x hx hnode ↦ ?_, rfl,
        hlast.congr fun x hx ↦ (hwritten hs hsplit rfl x hx).symm⟩
      have hpair : [x.node, e.node].Sublist s.nodes := Store.pair_sublist hsplit hx
      exact absurd hpair (Order.pair_sublist_asymm (h.store b s hs).nodup (hnode ▸ hpair))

theorem createdUpTo_of_added (h : ∀ x, Run.Added b x d) (id : NodeId) : CreatedUpTo d b id := by
  intro s ahead e behind hs hsplit _ x hx hst
  exact h x.node s x hs (by simp [hsplit, hx]) rfl hst

end Document

namespace Run

open Document

section Steps

variable {σ : Type} {w : Writer σ} {b id : NodeId} {r r' : Run σ} {front back : List NodeId}

/-- Creations go through a block from the front to the back. -/
theorem createdUpTo_creations (h : Linked r.document)
    (hl : r.document.inState b .toBeAdded = front ++ id :: back) :
    CreatedUpTo (front.foldl (create w b) r).document b id := by
  have hnodup : (front ++ id :: back).Nodup := hl ▸ h.inState_nodup b .toBeAdded
  have hfront : ∀ i ∈ front, i ∈ r.document.inState b .toBeAdded := fun i hi ↦
    hl ▸ List.mem_append_left _ hi
  obtain ⟨-, hunstages, hturn⟩ := Continues.foldl_create (w := w) h hnodup.of_append_left hfront
  intro s ahead e behind hs hsplit hid x hx hst
  have hmem : x ∈ s.entries := by simp [hsplit, hx]
  obtain ⟨s₀, x₀, hs₀, hx₀, hx'⟩ := hunstages.onlyUnstages.entry b s x hs hmem
  have hst₀ : x₀.state = .toBeAdded := (hx'.eq_of_ne (by simp [hst])).symm.trans hst
  have hin : x.node ∈ front ++ id :: back :=
    hl ▸ mem_inState.mpr ⟨s₀, hs₀, x₀, hx₀, hst₀, hx'.node.symm⟩
  rcases List.mem_append.mp hin with hturned | hrest
  · obtain ⟨r₁, h₁, hafter⟩ := hturn x.node hturned
    exact (added_create h₁ b x.node).onlyUnstages hafter.onlyUnstages s x hs hmem rfl hst
  · -- what has not had its turn has been behind `id` from the start
    obtain ⟨s₁, hs₁, hsub⟩ :=
      Thinned.foldl_create (w := w) h (fun i hi ↦ h.mem_inState_ne_root (hfront i hi)) s hs
    obtain rfl := Option.some.inj (hs₀.symm.trans hs₁)
    have hbefore : [x.node, id].Sublist s₀.nodes := hid ▸ (Store.pair_sublist hsplit hx).trans hsub
    have hnot := Order.pair_sublist_asymm (h.store b s₀ hs₀).nodup hbefore
    rcases List.mem_cons.mp hrest with hself | hback
    · exact absurd hbefore (hself ▸ hnot)
    · exact absurd (pair_sublist_inState hs₀ hl hback) hnot

/-- Once the creations are over, nothing that lives waits for one. -/
theorem added_of_continues (h : Linked r.document) (hc : Continues (r.creations w b) r')
    (x : NodeId) : Added b x r'.document := by
  refine Added.onlyUnstages ?_ hc.onlyUnstages
  intro s e hs he hnode hst
  exact hnode ▸ added_creations h b hs he hst

end Steps

section Log

variable {σ : Type} {w : Writer σ} {fuel : Nat} {b c id x : NodeId} {step : Step}
  {r r' : Run (σ × Log)} {l front back : List NodeId}

/-- A run in which nothing lives whose creation was refused. -/
structure Sound (r : Run (σ × Log)) : Prop where
  linked : Linked r.document
  refused : ∀ x ∈ Log.refusedCreations r.writer.2, r.document.node? x = none

namespace Sound

theorem silent (h : Sound r) (hl : Linked r'.document) (hi : Inherits r.document r'.document)
    (hw : r'.writer.2 = r.writer.2) : Sound r' := by
  refine ⟨hl, fun x hx ↦ ?_⟩
  rw [hw] at hx
  cases hn : r'.document.node? x with
  | none => rfl
  | some n' =>
    obtain ⟨n, hn, -⟩ := hi.node x n' hn
    simp [h.refused x hx] at hn

theorem asked (h : Sound r) (hl : Linked r'.document) (hi : Inherits r.document r'.document)
    {call : Call} {refusal : Option String} (hw : r'.writer.2 = r.writer.2 ++ [(call, refusal)])
    (hc : call.step ≠ .create ∨ refusal = none) : Sound r' := by
  have hsound : Sound { r' with writer := r.writer } := h.silent hl hi rfl
  refine ⟨hl, fun x hx ↦ hsound.refused x ?_⟩
  rwa [hw, Log.refusedCreations_concat _ hc] at hx

theorem delete (h : Sound r) (b id : NodeId) : Sound (r.delete w.audited b id) := by
  have hl := h.linked.delete (w := w.audited) b id
  have hd := deletion w.audited b id r
  generalize r.delete w.audited b id = r' at hl hd
  cases hd with
  | foreign => exact h.silent hl (.modifyStore _ _ _) rfl
  | unwritten => exact h.silent hl (.drop _ _ _) rfl
  | refused => exact h.asked hl (.refl _) rfl (.inl nofun)
  | deleted => exact h.asked hl (.drop _ _ _) rfl (.inl nofun)

theorem create (h : Sound r) (b : NodeId) (hne : id ≠ root) : Sound (r.create w.audited b id) := by
  have hl := h.linked.create (w := w.audited) b hne
  have hd := creation w.audited b id r
  generalize r.create w.audited b id = r' at hl hd
  cases hd with
  | dead => exact h
  | @refused n message hn =>
    have hsound : Sound { r with document := (r.document.purge b id).release id } :=
      h.silent hl (.drop _ _ _) rfl
    refine ⟨hl, fun x hx ↦ ?_⟩
    rcases List.mem_append.mp (Log.refusedCreations_append r.writer.2 _ ▸ hx) with hold | hnew
    · exact hsound.refused x hold
    · obtain ⟨-, -, rfl⟩ := (Log.mem_refusedCreations_cons.mp hnew).resolve_right List.not_mem_nil
      exact node?_release_self _ _
  | created range =>
    refine h.asked hl (.trans (.modifyNode _ id fun n ↦ ?_) (.modifyStore _ b _)) rfl (.inr ‹_›)
    exact congrArg (·.1.1) (place_createdAt range n)

theorem flush {inner : NodeId → Run (σ × Log) → Run (σ × Log)} (h : Sound r)
    (hin : ∀ i r', Sound r' → Sound (inner i r')) (b id : NodeId) :
    Sound (r.flush w.audited inner b id) := by
  have hinner := hin id { r with clean := true } ⟨h.linked, h.refused⟩
  have hd := flushing w.audited inner b id r
  generalize r.flush w.audited inner b id = r' at hd
  cases hd with
  | idle => exact h
  | inside => exact hinner
  | settled =>
    exact hinner.silent (hinner.linked.markWritten id) (.modifyNode _ id fun _ ↦ rfl) rfl
  | refused => exact h.asked h.linked (.refl _) rfl (.inl nofun)
  | flushed => exact h.asked (h.linked.commit id) (.commit _ id) rfl (.inl nofun)

theorem relocate (h : Sound r) (b id : NodeId) : Sound (r.relocate w.audited b id) := by
  have hl := h.linked.relocate (w := w.audited) b id
  have hd := relocating w.audited b id r
  generalize r.relocate w.audited b id = r' at hl hd
  cases hd with
  | dead => exact h
  | refused => exact h.asked hl (.refl _) rfl (.inl nofun)
  | relocated => exact h.asked hl (.modifyStore _ b _) rfl (.inl nofun)

theorem foldl {f : Run (σ × Log) → NodeId → Run (σ × Log)} (h : Sound r)
    (hf : ∀ r, ∀ i ∈ l, Sound r → Sound (f r i)) : Sound (l.foldl f r) :=
  List.foldlRecOn (motive := Sound) l f h fun r h i hi ↦ hf r i hi h

theorem deletions (h : Sound r) (b : NodeId) : Sound (r.deletions w.audited b) :=
  h.foldl fun _ i _ h' ↦ h'.delete b i

theorem creations (h : Sound r) (b : NodeId) : Sound (r.creations w.audited b) :=
  h.foldl fun _ _ hi h' ↦ h'.create b (h.linked.mem_inState_ne_root hi)

theorem flushes (h : Sound r) (hin : ∀ i r', Sound r' → Sound (block w.audited fuel i r'))
    (b : NodeId) : Sound (r.flushes w.audited fuel b) :=
  h.foldl fun _ i _ h' ↦ h'.flush hin b i

theorem relocations (h : Sound r) (b : NodeId) : Sound (r.relocations w.audited b) :=
  h.foldl fun _ i _ h' ↦ h'.relocate b i

theorem settle (h : Sound r) (b : NodeId) :
    Sound { r with document := r.document.modifyStore b Store.settle } :=
  h.silent (h.linked.settle b) (.modifyStore _ b _) rfl

theorem block (w : Writer σ) (fuel : Nat) (b : NodeId) (r : Run (σ × Log)) (h : Sound r) :
    Sound (r.block w.audited fuel b) := by
  induction fuel generalizing b r with
  | zero => exact h
  | succ fuel ih =>
    have hrel : Sound (r.phases w.audited fuel b) :=
      (((h.deletions b).creations b).flushes (fun i r ↦ ih i r) b).relocations b
    rw [block_succ]
    exact hrel.settle b

end Sound

/-- When the turn of an entry comes, nothing refused is left, and all creations in front of it are
over, unless it is removed. -/
theorem Turn.spec (h : Turn w.audited fuel b r step id r') (hs : Sound r) :
    Sound r' ∧ (step ≠ .delete → CreatedUpTo r'.document b id) := by
  have hdel : Sound (r.deletions w.audited b) := hs.deletions b
  have hcre : Sound ((r.deletions w.audited b).creations w.audited b) := hdel.creations b
  cases h with
  | delete => exact ⟨hs.foldl fun _ i _ h' ↦ h'.delete b i, fun hne ↦ absurd rfl hne⟩
  | create hl =>
    refine ⟨hdel.foldl fun _ i hi h' ↦ h'.create b ?_, fun _ ↦ createdUpTo_creations hdel.linked hl⟩
    exact hdel.linked.mem_inState_ne_root (hl ▸ List.mem_append_left _ hi)
  | flush hl =>
    refine ⟨hcre.foldl fun _ i _ h' ↦ h'.flush (fun i r h ↦ h.block w fuel i r) b i, fun _ ↦ ?_⟩
    have hnodup := hl ▸ hcre.linked.placeable_nodup b
    obtain ⟨-, hunstages⟩ :=
      Continues.foldl_flush (fun i r h ↦ .block w.audited fuel i r h) hcre.linked
      hnodup.of_append_left b
    exact createdUpTo_of_added (added_of_continues hdel.linked hunstages) id
  | relocate hl =>
    have hin : ∀ i r', Sound r' → Sound (block w.audited fuel i r') :=
      fun i r h ↦ h.block w fuel i r
    have hflu := hcre.flushes hin b
    refine ⟨hflu.foldl fun _ i _ h' ↦ h'.relocate b i, fun _ ↦ ?_⟩
    obtain ⟨-, hunstages⟩ :=
      Continues.flushes (fun i r h ↦ .block w.audited fuel i r h) hcre.linked b
    have hnodup := hl ▸ hflu.linked.inState_nodup b .moved
    obtain ⟨-, hrest, -⟩ := Continues.foldl_relocate (w := w.audited) hflu.linked
      hnodup.of_append_left fun i hi ↦ hl ▸ List.mem_append_left _ hi
    exact createdUpTo_of_added (added_of_continues hdel.linked (hunstages.trans hrest)) id

theorem Moment.spec (h : Moment w.audited fuel b r step c x r') (hs : Sound r) :
    Sound r' ∧ (step ≠ .delete → CreatedUpTo r'.document c x) := by
  induction h with
  | here hturn => exact hturn.spec hs
  | inside hturn _ _ _ _ ih =>
    obtain ⟨hs₁, -⟩ := hturn.spec hs
    exact ih ⟨hs₁.linked, hs₁.refused⟩

end Log

end Run

namespace Document

variable {σ : Type} {d : Document}

/-- Anchors are in place. Whatever a writer refuses, at the moment of a creation, a flush or a
relocation the anchor of the node is the last one in the text in front of it with the same
qualifier, if there is one: it lives, and it neither waits for its creation or its removal nor is
its creation one of those that were refused. -/
theorem anchor_in_place (hd : d.Reachable) (w : Writer σ) (st : σ) {before after : Log}
    {p : Call × Option String} (hlog : d.audit w st = before ++ p :: after)
    (hstep : p.1.step ≠ .delete) :
    ∃ r, d.Moment w.audited (st, []) p.1.step p.1.target.block p.1.target.id r ∧
      r.writer.2 = before ∧ r.Asks p.1.step p.1.target.block p.1.target.id p.1 ∧
      ∀ a, (p.1.target.anchor = some a ↔
          InPlace r.document p.1.target.block p.1.target.id a) ∧
        (p.1.target.anchor = some a → a ∉ Log.refusedCreations before) := by
  obtain ⟨r, hmoment, hbefore, hasks⟩ := d.moment_of_audit w st hlog
  obtain ⟨hsound, hcreated⟩ := Run.Moment.spec hmoment ⟨hd.linked, by simp [Log.refusedCreations]⟩
  have hanchor : p.1.target.anchor = r.document.anchor? p.1.target.block p.1.target.id := by
    obtain ⟨-, n, -, htarget⟩ := hasks
    rw [htarget]
    rfl
  refine ⟨r, hmoment, hbefore, hasks, fun a ↦ ?_⟩
  have hplace := anchor?_eq_some_iff_inPlace hsound.linked (hcreated hstep) (a := a)
  rw [hanchor]
  refine ⟨hplace, fun ha hrefused ↦ ?_⟩
  obtain ⟨m, hm⟩ := (hplace.mp ha).exists_node
  simp [hsound.refused a (hbefore ▸ hrefused)] at hm

/-- Three literals to be added behind a parsed one. -/
def queuedDocument : Document :=
  let d := ((Edit.addParsed root (.literal ⟨["name"]⟩ (.string "app"))).run (.new ⟨"app"⟩ {})).2
  let d := ((Edit.add root (.literal ⟨["group"]⟩ (.string "tools"))).run d).2
  let d := ((Edit.add root (.literal ⟨["version"]⟩ (.integer 1))).run d).2
  ((Edit.add root (.literal ⟨["homepage"]⟩ (.string "/app"))).run d).2

/-- The writer refuses the version `3`, so that the homepage `4` is written after the
group `2`, which has been created before. -/
theorem anchor_in_place_queued :
    ∃ before p, ∃ r : Run (Nat × Log),
      queuedDocument.audit (.refusing [(.create, "version")]) 0 = before ++ [p] ∧
      p.1.brief = ⟨.create, 4, root⟩ ∧ p.1.target.anchor = some 2 ∧ r.writer.2 = before ∧
      Log.refusedCreations before = [3] ∧ InPlace r.document root 4 2 := by
  have hd : queuedDocument.Reachable :=
    .edit _ (.edit _ (.edit _ (.edit _ (.new _ _) trivial) trivial) trivial) trivial
  have hcalls : (queuedDocument.audit (.refusing [(.create, "version")]) 0).map
        (fun p ↦ (p.1.brief, p.1.target.anchor, p.2)) =
      [(⟨.create, 2, root⟩, some 1, none),
        (⟨.create, 3, root⟩, some 2, some "Create refused for version")] ++
      [(⟨.create, 4, root⟩, some 2, none)] := by decide +kernel
  have hrefused : Log.refusedCreations
      (queuedDocument.audit (.refusing [(.create, "version")]) 0) = [3] := by decide +kernel
  obtain ⟨before, last, hlog, -, hlast⟩ := List.map_eq_append_iff.mp hcalls
  obtain ⟨p, rfl, hp⟩ := List.map_eq_singleton_iff.mp hlast
  simp only [Prod.mk.injEq] at hp
  obtain ⟨hbrief, hanchor, haccepted⟩ := hp
  have hcreate : p.1.step = .create := congrArg Brief.step hbrief
  have hid : p.1.target.id = 4 := congrArg Brief.node hbrief
  have hblock : p.1.target.block = root := congrArg Brief.block hbrief
  have hstep : p.1.step ≠ .delete := by simp [hcreate]
  obtain ⟨r, -, hbefore, -, hplace⟩ := anchor_in_place hd _ _ hlog hstep
  have hplace := (hplace 2).1.mp hanchor
  rw [hblock, hid] at hplace
  rw [hlog, Log.refusedCreations_concat before (.inr haccepted)] at hrefused
  exact ⟨before, p, r, hlog, hbrief, hanchor, hbefore, hrefused, hplace⟩

end Document

end BuildScript
