import BuildScript.Proofs.Clearing.Run
import Mathlib.Logic.Relation

namespace BuildScript

namespace Document

variable {d₀ d d' : Document} {c id o : NodeId} {state : EntryState} {σ : Type} {w : Writer σ}
  {r : Run σ} {fuel : Nat}

/-- The blocks that the write of the main tree enters, on its way from the root through the entries
that have a place in the text. -/
inductive Traversed (d : Document) : NodeId → Prop
  | root : Traversed d root
  | child {c id : NodeId} : Traversed d c → id ∈ d.placeable c → d.isLive id → Traversed d id

def Visited (d : Document) (c : NodeId) : Prop :=
  Traversed d c ∨ ∃ o ∈ d.overlays, Nested d o c

/-- What an apply may release: what is staged for removal where it belongs, and what is staged for a
creation that the writer refuses. -/
inductive Released (d : Document) (id : NodeId) : Prop
  | removed {c : NodeId} : d.isOwnedBy id c → id ∈ d.inState c .toBeRemoved → Released d id
  | refused {c : NodeId} : Traversed d c → id ∈ d.inState c .toBeAdded → Released d id

theorem Released.ne_root (h : Released d id) (hl : Linked d) : id ≠ root := by
  cases h with
  | removed hown =>
    obtain ⟨n, hn, hp⟩ := isOwnedBy_iff.mp hown
    exact hl.ne_root_of_parent hn hp
  | refused _ hid => exact hl.mem_inState_ne_root hid

/-- The steps of an apply to `d₀`, by what they do to the document in the middle of it. -/
inductive ApplyStep (d₀ d : Document) : Document → Prop
  | node (id : NodeId) {f : Node → Node} :
      (∀ n, (f n).parent = n.parent ∧ (f n).holders = n.holders) →
      ApplyStep d₀ d (d.modifyNode id f)
  | entry {c id : NodeId} {state : EntryState} {f : Entry → Entry} : Visited d₀ c →
      state.isPending → id ∈ d₀.inState c state → (∀ e, (f e).node = e.node) →
      ApplyStep d₀ d (d.modifyEntry c id f)
  | settle {c : NodeId} {f : Store → Store} : Visited d₀ c → f = .settle ∨ f = .settleAll →
      ApplyStep d₀ d (d.modifyStore c f)
  | purge {c id : NodeId} {state : EntryState} : Visited d₀ c → state.isPending →
      id ∈ d₀.inState c state → ApplyStep d₀ d (d.purge c id)
  | release {id : NodeId} : Linked d → OnlyUnstages (fun _ _ ↦ True) d₀ d → Released d₀ id →
      ApplyStep d₀ d (d.release id)

structure Underway (d₀ d : Document) : Prop where
  linked : Linked d
  onlyUnstages : OnlyUnstages (fun _ _ ↦ True) d₀ d
  steps : Relation.ReflTransGen (ApplyStep d₀) d₀ d

theorem mem_inState_onlyUnstages {C : NodeId → NodeId → Prop} (hc : OnlyUnstages C d₀ d)
    (hs : state ≠ .existing) (h : id ∈ d.inState c state) : id ∈ d₀.inState c state := by
  obtain ⟨s', hs', e', he', hst, rfl⟩ := mem_inState.mp h
  obtain ⟨s, e, hs₀, he, hunstages⟩ := hc.entry c s' e' hs' he'
  exact mem_inState.mpr ⟨s, hs₀, e, he, (hunstages.eq_of_ne (hst ▸ hs)).symm.trans hst,
    hunstages.node.symm⟩

/-- The changes of an apply to `d₀`: what each does to the document in the middle of it, and what
holds of a block, or of one of its entries, when it is changed. -/
inductive Advance (d₀ d : Document) : Document → Prop
  | markWritten (id : NodeId) : Advance d₀ d (d.modifyNode id Node.markWritten)
  | commit (id : NodeId) : Advance d₀ d (d.modifyNode id (·.commit.markWritten))
  | created {c id : NodeId} {n : Node} (range : SourceRange) : Traversed d₀ c →
      id ∈ d₀.inState c .toBeAdded → d.node? id = some n → EndsIn c .toBeAdded d id →
      Advance d₀ d ((d.modifyNode id (·.createdAt range)).modifyEntry c id (·.createdAt range))
  | relocated {c id : NodeId} : Visited d₀ c → id ∈ d₀.inState c .moved → EndsIn c .moved d id →
      Advance d₀ d (d.modifyEntry c id Entry.relocated)
  | settle {c : NodeId} : Visited d₀ c → Advance d₀ d (d.modifyStore c Store.settle)
  | settleAll {c o : NodeId} : o ∈ d₀.overlays → Nested d₀ o c → Lacks c .toBeRemoved d →
      Advance d₀ d (d.modifyStore c Store.settleAll)
  | purge {c id : NodeId} : Visited d₀ c → id ∈ d₀.inState c .toBeRemoved →
      Advance d₀ d (d.purge c id)
  | drop {c id : NodeId} {state : EntryState} : Visited d₀ c → state.isPending →
      id ∈ d₀.inState c state → Released d₀ id → id ≠ root →
      Advance d₀ d ((d.purge c id).release id)

namespace Advance

theorem linked (h : Advance d₀ d d') (hl : Linked d) : Linked d' := by
  cases h with
  | markWritten id => exact hl.markWritten id
  | commit id => exact hl.commit id
  | created range => exact hl.created _ _ range
  | relocated => exact hl.relocated _ _
  | settle => exact hl.settle _
  | settleAll => exact hl.settleAll _
  | purge => exact hl.purge _ _
  | drop _ _ _ _ hne => exact hl.purge_release hne

theorem onlyUnstages (h : Advance d₀ d d') (hl : Linked d) :
    OnlyUnstages (fun _ _ ↦ True) d d' := by
  cases h with
  | markWritten id => exact .markWritten d id
  | commit id => exact .commit d id
  | created range _ _ _ hends => exact .created hends trivial range
  | relocated _ _ hends => exact .relocated hends
  | settle => exact .settle d _
  | settleAll _ _ hrem => exact .settleAll (fun _ ↦ trivial) hrem
  | purge => exact .purge d _ _
  | drop => exact .drop hl _ _

theorem steps (h : Advance d₀ d d') (hl : Linked d) (hc : OnlyUnstages (fun _ _ ↦ True) d₀ d) :
    Relation.ReflTransGen (ApplyStep d₀) d d' := by
  cases h with
  | markWritten id => exact .single (.node id fun _ ↦ ⟨rfl, rfl⟩)
  | commit id => exact .single (.node id fun n ↦ ⟨n.commit_fields.1, n.commit_fields.2.1⟩)
  | created range hvisit hid =>
    refine (Relation.ReflTransGen.single (.node _ fun n ↦ ?_)).tail
      (.entry (.inl hvisit) rfl hid fun _ ↦ rfl)
    have hplace := place_createdAt range n
    simp only [place, post, Prod.mk.injEq] at hplace
    exact ⟨hplace.1.1, hplace.2⟩
  | relocated hvisit hid => exact .single (.entry hvisit rfl hid fun _ ↦ rfl)
  | settle hvisit => exact .single (.settle hvisit (.inl rfl))
  | settleAll ho hnest => exact .single (.settle (.inr ⟨_, ho, hnest⟩) (.inr rfl))
  | purge hvisit hid => exact .single (.purge hvisit rfl hid)
  | drop hvisit hst hid hrel =>
    exact (Relation.ReflTransGen.single (.purge hvisit hst hid)).tail
      (.release (hl.purge _ _) (hc.trans (.purge d _ _)) hrel)

end Advance

structure Advanced (d₀ d : Document) : Prop where
  linked : Linked d
  onlyUnstages : OnlyUnstages (fun _ _ ↦ True) d₀ d
  changes : Relation.ReflTransGen (Advance d₀) d₀ d

namespace Advanced

theorem start (h : Linked d) : Advanced d d := ⟨h, .refl _ d, .refl⟩

theorem tail (h : Advanced d₀ d) (hstep : Advance d₀ d d') : Advanced d₀ d' :=
  ⟨hstep.linked h.linked, h.onlyUnstages.trans (hstep.onlyUnstages h.linked), h.changes.tail hstep⟩

/-- What holds at the start of an apply and is kept by its changes holds all the way. -/
theorem keeps {P : Document → Prop} (h : Advanced d₀ d) (hl : Linked d₀) (h₀ : P d₀)
    (hP : ∀ d d', Linked d → OnlyUnstages (fun _ _ ↦ True) d₀ d → Advance d₀ d d' → P d → P d') :
    P d := by
  obtain ⟨-, -, hchanges⟩ := h
  have hway : Advanced d₀ d ∧ P d := by
    induction hchanges with
    | refl => exact ⟨start hl, h₀⟩
    | tail _ hstep ih =>
      obtain ⟨hway, hp⟩ := ih
      exact ⟨hway.tail hstep, hP _ _ hway.linked hway.onlyUnstages hstep hp⟩
  exact hway.2

theorem underway (h : Advanced d₀ d) (hl : Linked d₀) : Underway d₀ d :=
  ⟨h.linked, h.onlyUnstages, h.keeps hl .refl fun _ _ hl hc hstep hway ↦
    hway.trans (hstep.steps hl hc)⟩

theorem delete (h : Advanced d₀ r.document) (hc : Visited d₀ c)
    (hid : id ∈ d₀.inState c .toBeRemoved) : Advanced d₀ (r.delete w c id).document := by
  have hdrop : ∀ {n}, r.document.node? id = some n → n.parent = some c →
      Advanced d₀ ((r.document.purge c id).release id) := fun hn hp ↦
    h.tail
      (.drop hc rfl hid (.removed (h.onlyUnstages.isOwnedBy (isOwnedBy_iff.mpr ⟨_, hn, hp⟩)) hid)
      (h.linked.ne_root_of_parent hn hp))
  have hstep := Run.deletion w c id r
  generalize r.delete w c id = r' at hstep
  cases hstep with
  | foreign => exact h.tail (.purge hc hid)
  | unwritten hn hp => exact hdrop hn hp
  | refused => exact h
  | deleted hn hp => exact hdrop hn hp

theorem deletions (h : Advanced d₀ r.document) (hc : Visited d₀ c) :
    Advanced d₀ (r.deletions w c).document :=
  List.foldlRecOn (motive := fun r' : Run σ ↦ Advanced d₀ r'.document) _ (Run.delete w c) h
    fun _ hr _ hid ↦ hr.delete hc (mem_inState_onlyUnstages h.onlyUnstages (by simp) hid)

theorem create (h : Advanced d₀ r.document) (hc : Traversed d₀ c)
    (hends : EndsIn c .toBeAdded r.document id) (hid : id ∈ d₀.inState c .toBeAdded)
    (hne : id ≠ root) : Advanced d₀ (r.create w c id).document := by
  have hstep := Run.creation w c id r
  generalize r.create w c id = r' at hstep
  cases hstep with
  | dead => exact h
  | refused => exact h.tail (.drop (.inl hc) rfl hid (.refused hc hid) hne)
  | created range hn => exact h.tail (.created range hc hid hn hends)

theorem creations (h : Advanced d₀ r.document) (hc : Traversed d₀ c) :
    Advanced d₀ (r.creations w c).document :=
  (Run.Continues.foldl (I := Advanced d₀)
    (P := fun d id ↦ EndsIn c .toBeAdded d id ∧ id ∈ d₀.inState c .toBeAdded ∧ id ≠ root)
    (fun r id hr ⟨hends, hid, hne⟩ ↦ by
      obtain ⟨hunstages, hspare⟩ := Run.Continues.create (w := w) hr.linked hends
      exact ⟨hr.create hc hends hid hne, hunstages, fun i hi hP ↦ ⟨hP.1.spared hspare hi, hP.2⟩⟩)
    (h.linked.inState_nodup c .toBeAdded) h fun id hid ↦ ⟨h.linked.endsIn hid,
      mem_inState_onlyUnstages h.onlyUnstages (by simp) hid, h.linked.mem_inState_ne_root hid⟩).1

theorem relocate (h : Advanced d₀ r.document) (hc : Visited d₀ c)
    (hends : EndsIn c .moved r.document id) (hid : id ∈ d₀.inState c .moved) :
    Advanced d₀ (r.relocate w c id).document := by
  have hstep := Run.relocating w c id r
  generalize r.relocate w c id = r' at hstep
  cases hstep with
  | dead | refused => exact h
  | relocated => exact h.tail (.relocated hc hid hends)

theorem relocations (h : Advanced d₀ r.document) (hc : Visited d₀ c) :
    Advanced d₀ (r.relocations w c).document :=
  (Run.Continues.foldl (I := Advanced d₀)
    (P := fun d id ↦ EndsIn c .moved d id ∧ id ∈ d₀.inState c .moved)
    (fun r id hr ⟨hends, hid⟩ ↦ by
      obtain ⟨hunstages, hspare⟩ := Run.Continues.relocate (w := w) hends
      exact ⟨hr.relocate hc hends hid, hunstages, fun i hi hP ↦ ⟨hP.1.spared hspare hi, hP.2⟩⟩)
    (h.linked.inState_nodup c .moved) h fun id hid ↦ ⟨h.linked.endsIn hid,
      mem_inState_onlyUnstages h.onlyUnstages (by simp) hid⟩).1

theorem flush {inner : NodeId → Run σ → Run σ} (h : Advanced d₀ r.document) (c id : NodeId)
    (hin : ∀ n, r.document.node? id = some n → n.isContainer →
      Advanced d₀ (inner id { r with clean := true }).document) :
    Advanced d₀ (r.flush w inner c id).document := by
  have hstep := Run.flushing w inner c id r
  generalize r.flush w inner c id = r' at hstep
  cases hstep with
  | idle | refused => exact h
  | inside hn _ hcont => exact hin _ hn hcont
  | settled hn _ hcont => exact (hin _ hn hcont).tail (.markWritten id)
  | flushed => exact h.tail (.commit id)

theorem block (w : Writer σ) (fuel : Nat) (c : NodeId) (r : Run σ) (h : Advanced d₀ r.document)
    (hc : Traversed d₀ c) : Advanced d₀ (r.block w fuel c).document := by
  induction fuel generalizing c r with
  | zero => exact h
  | succ fuel ih =>
    have h₂ := (h.deletions (w := w) (.inl hc)).creations (w := w) hc
    rw [Run.block_succ, Run.phases]
    generalize (r.deletions w c).creations w c = r₂ at h₂
    have h₃ : Advanced d₀ (r₂.flushes w fuel c).document := by
      refine List.foldlRecOn (motive := fun r' : Run σ ↦ Advanced d₀ r'.document) _
        (Run.flush w (Run.block w fuel) c) h₂ fun r' hr id hid ↦ hr.flush c id fun n hn _ ↦ ?_
      obtain ⟨n₀, hn₀, -⟩ := hr.onlyUnstages.node id n hn
      exact ih id { r' with clean := true } hr
        (.child hc (mem_placeable_onlyUnstages h₂.onlyUnstages hid) (isLive_iff.mpr ⟨n₀, hn₀⟩))
    exact (h₃.relocations (w := w) (.inl hc)).tail (.settle (.inl hc))

theorem writeMain (h : Linked d) (w : Writer σ) (st : σ) :
    Advanced d (d.writeMain w st).document := by
  unfold Document.writeMain
  split
  · have hmain := block w d.nodes.size root { document := d, writer := st } (start h) .root
    dsimp only
    split
    · exact hmain.tail (.markWritten root)
    · exact hmain
  · exact start h

theorem dropRemovals (h : Advanced d₀ d) (hc : Visited d₀ c) : Advanced d₀ (d.dropRemovals c) := by
  refine List.foldlRecOn (motive := Advanced d₀) _ (dropRemoval c) h fun d' hd id hid ↦ ?_
  have hid' := mem_inState_onlyUnstages h.onlyUnstages (by simp) hid
  unfold dropRemoval
  split
  · next hown =>
    obtain ⟨n, hn, hp⟩ := isOwnedBy_iff.mp hown
    exact hd.tail (.drop hc rfl hid' (.removed (hd.onlyUnstages.isOwnedBy hown) hid')
      (hd.linked.ne_root_of_parent hn hp))
  · exact hd.tail (.purge hc hid')

theorem settleWithin (ho : o ∈ d₀.overlays) (fuel : Nat) (c : NodeId) (d : Document)
    (h : Advanced d₀ d) (hc : Nested d₀ o c) : Advanced d₀ (settleWithin fuel d c) := by
  induction fuel generalizing c d with
  | zero => exact h
  | succ fuel ih =>
    have h₁ := h.dropRemovals (.inr ⟨o, ho, hc⟩)
    obtain ⟨-, -, hrem⟩ := dropRemovals_spec (fun _ _ ↦ True) h.linked c
    rw [settleWithin_succ]
    generalize d.dropRemovals c = d₁ at h₁ hrem
    refine tail (List.foldlRecOn (motive := Advanced d₀) _ (settleChild fuel c)
      (h₁.tail (.settleAll ho hc hrem)) fun d' hd id hid ↦ ?_) (.markWritten c)
    unfold settleChild
    split
    · exact hd
    · next hown =>
      split
      · obtain ⟨n', hn', hp⟩ := isOwnedBy_iff.mp (by simpa using hown)
        obtain ⟨n, hn, hpar⟩ := hd.onlyUnstages.node id n' hn'
        obtain ⟨e', hmem, -⟩ := List.mem_map.mp hid
        obtain ⟨s, hs, he'⟩ := mem_entries.mp hmem
        obtain ⟨s₀, -, hs₀, -⟩ := h₁.onlyUnstages.entry c s e' hs he'
        exact ih id d' hd (hc.step hn (hpar ▸ hp) hs₀)
      · exact hd.tail (.commit id)

theorem apply (h : Linked d) (w : Writer σ) (st : σ) : Advanced d (d.apply w st).document := by
  have hmain := writeMain h w st
  rw [apply_eq]
  exact settleOverlays_induction hmain fun d' fuel o ho hd ↦
    settleWithin (hmain.onlyUnstages.overlays ▸ ho) fuel o d' hd .refl

end Advanced

theorem Underway.apply (h : Linked d) (w : Writer σ) (st : σ) :
    Underway d (d.apply w st).document := (Advanced.apply h w st).underway h

end Document

end BuildScript
