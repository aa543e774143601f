import BuildScript.Proofs.Apply.Steps
import BuildScript.Proofs.Linked.Edit

namespace BuildScript

namespace Node

theorem commit_fields (n : Node) : n.commit.parent = n.parent ∧ n.commit.holders = n.holders ∧
    n.commit.isContainer = n.isContainer ∧ n.commit.pending = none := by
  unfold commit
  split
  · exact ⟨rfl, rfl, Kind.isContainer_withValue _ _, rfl⟩
  · next h => exact ⟨rfl, rfl, rfl, h⟩

end Node

namespace Store

theorem settleBaseline_entries (s : Store) : s.settleBaseline.entries = s.entries := by
  unfold settleBaseline
  split <;> rfl

theorem settleBaseline_baseline {s : Store}
    (h : s.baseline = none ∨ ∀ e ∈ s.entries, e.state ≠ .moved) :
    s.settleBaseline.baseline = none := by
  unfold settleBaseline
  split
  · next hmoved =>
    obtain ⟨e, he, hst⟩ := List.any_eq_true.mp hmoved
    exact h.resolve_right fun hne ↦ hne e he (by simpa using hst)
  · rfl

def settled (e : Entry) : Entry :=
  if e.state = .toBeRemoved then e else { e with staged := false, restore := none }

theorem settle_entries (s : Store) : s.settle.entries = s.entries.map settled :=
  settleBaseline_entries _

theorem settled_node (e : Entry) : (settled e).node = e.node := by
  unfold settled
  split <;> rfl

theorem settled_state (e : Entry) : (settled e).state = e.state := by
  unfold settled
  split <;> rfl

theorem nodes_settle (s : Store) : s.settle.nodes = s.nodes := by
  rw [nodes, settle_entries, List.map_map]
  exact List.map_congr_left fun e _ ↦ settled_node e

/-- The order before the first move is kept only for an entry that is still moved. -/
theorem settle_baseline {s : Store} (h : s.baseline = none ∨ ∀ e ∈ s.entries, e.state ≠ .moved) :
    s.settle.baseline = none := by
  refine settleBaseline_baseline (h.imp_right fun hne e' he' ↦ ?_)
  obtain ⟨e, he, rfl⟩ := List.mem_map.mp he'
  exact fun hst ↦ hne e he ((settled_state e).symm.trans hst)

def settledAll (e : Entry) : Entry :=
  { e with
    state := if e.state = .toBeAdded ∨ e.state = .moved then .existing else e.state
    staged := false
    restore := none }

theorem settleAll_entries (s : Store) : s.settleAll.entries = s.entries.map settledAll :=
  settleBaseline_entries _

theorem nodes_settleAll (s : Store) : s.settleAll.nodes = s.nodes := by
  rw [nodes, settleAll_entries, List.map_map]
  rfl

theorem settleAll_baseline (s : Store) : s.settleAll.baseline = none := by
  refine settleBaseline_baseline (.inr fun e' he' ↦ ?_)
  obtain ⟨e, -, rfl⟩ := List.mem_map.mp he'
  dsimp only
  split
  · simp
  · next hst => exact fun h ↦ hst (.inr h)

end Store

namespace Document

variable {d : Document} {b id : NodeId} {s : Store} {σ : Type} {w : Writer σ} {r : Run σ}

theorem StoreFits.map {f : Entry → Entry} {s' : Store} (h : d.StoreFits b s)
    (hs : s'.entries = s.entries.map f) (hf : ∀ e, (f e).node = e.node)
    (hr : ∀ e, e.restore ≠ some .toBeRemoved → (f e).restore ≠ some .toBeRemoved) :
    d.StoreFits b s' := by
  have hn : s'.nodes = s.nodes := by simp [Store.nodes, hs, hf]
  refine h.of_perm (.of_eq hn) fun e he ↦ ?_
  obtain ⟨e₀, he₀, rfl⟩ := List.mem_map.mp (hs ▸ he)
  exact hr e₀ (h.restored e₀ he₀)

namespace Linked

theorem purge (h : Linked d) (b id : NodeId) : Linked (d.purge b id) :=
  h.modifyStore fun s hs ↦ (h.store b s hs).of_sublist List.eraseP_sublist

theorem purge_release (h : Linked d) (hr : id ≠ Document.root) :
    Linked ((d.purge b id).release id) := (h.purge b id).release hr

theorem modifyEntry (h : Linked d) {f : Entry → Entry} (hf : ∀ e, (f e).node = e.node)
    (hr : ∀ e, (f e).restore = e.restore) (b id : NodeId) : Linked (d.modifyEntry b id f) :=
  h.modifyStore fun s hs ↦ (h.store b s hs).modifyEntry hf fun e he ↦ by rwa [hr]

theorem markWritten (h : Linked d) (id : NodeId) : Linked (d.modifyNode id Node.markWritten) :=
  h.modifyNode fun n hn ↦ ⟨rfl, rfl, rfl, (h.node id n hn).settable⟩

theorem commit (h : Linked d) (id : NodeId) : Linked (d.modifyNode id (·.commit.markWritten)) := by
  refine h.modifyNode fun n _ ↦ ?_
  obtain ⟨hp, hh, hc, hpending⟩ := n.commit_fields
  exact ⟨hp, hh, hc, fun hs ↦ by simp [Node.markWritten, hpending] at hs⟩

theorem settle (h : Linked d) (b : NodeId) : Linked (d.modifyStore b Store.settle) := by
  refine h.modifyStore fun s hs ↦ ?_
  refine (h.store b s hs).map s.settle_entries Store.settled_node fun e he ↦ ?_
  unfold Store.settled
  split
  · exact he
  · simp

theorem settleAll (h : Linked d) (b : NodeId) : Linked (d.modifyStore b Store.settleAll) :=
  h.modifyStore fun s hs ↦
    (h.store b s hs).map s.settleAll_entries (fun _ ↦ rfl) fun _ _ ↦ by simp [Store.settledAll]

theorem delete (h : Linked r.document) (b id : NodeId) : Linked (r.delete w b id).document := by
  have hstep := Run.deletion w b id r
  generalize r.delete w b id = r' at hstep
  cases hstep with
  | foreign => exact h.purge b id
  | unwritten hn hp => exact h.purge_release (h.ne_root_of_parent hn hp)
  | refused => exact h
  | deleted hn hp => exact h.purge_release (h.ne_root_of_parent hn hp)

theorem createdAt (h : Linked d) (id : NodeId) (range : SourceRange) :
    Linked (d.modifyNode id (·.createdAt range)) := by
  refine h.modifyNode fun n hn ↦ ?_
  have hset := (h.node id n hn).settable
  unfold Node.createdAt
  simp only
  split
  · exact ⟨rfl, rfl, rfl, hset⟩
  · obtain ⟨hp, hh, hc, hpending⟩ := Node.commit_fields { n with source := some range }
    exact ⟨hp, hh, hc, fun hs ↦ by simp [Node.markWritten, hpending] at hs⟩

theorem created (h : Linked d) (b id : NodeId) (range : SourceRange) :
    Linked ((d.modifyNode id (·.createdAt range)).modifyEntry b id (·.createdAt range)) :=
  (h.createdAt id range).modifyEntry (f := Entry.createdAt range) (fun _ ↦ rfl) (fun _ ↦ rfl) b id

theorem create (h : Linked r.document) (b : NodeId) (hr : id ≠ Document.root) :
    Linked (r.create w b id).document := by
  have hstep := Run.creation w b id r
  generalize r.create w b id = r' at hstep
  cases hstep with
  | dead => exact h
  | refused => exact h.purge_release hr
  | created range => exact h.created b id range

theorem flush {inner : NodeId → Run σ → Run σ} (h : Linked r.document) (b id : NodeId)
    (hinner : ∀ i r', Linked r'.document → Linked (inner i r').document) :
    Linked (r.flush w inner b id).document := by
  have hstep := Run.flushing w inner b id r
  generalize r.flush w inner b id = r' at hstep
  cases hstep with
  | idle => exact h
  | inside => exact hinner id { r with clean := true } h
  | settled => exact (hinner id { r with clean := true } h).markWritten id
  | refused => exact h
  | flushed => exact h.commit id

theorem relocated (h : Linked d) (b id : NodeId) : Linked (d.modifyEntry b id Entry.relocated) :=
  h.modifyEntry (f := Entry.relocated) (fun _ ↦ rfl) (fun _ ↦ rfl) b id

theorem relocate (h : Linked r.document) (b id : NodeId) : Linked (r.relocate w b id).document := by
  have hstep := Run.relocating w b id r
  generalize r.relocate w b id = r' at hstep
  cases hstep with
  | dead => exact h
  | refused => exact h
  | relocated => exact h.relocated b id

theorem foldl_run {f : Run σ → NodeId → Run σ} {l : List NodeId} (h : Linked r.document)
    (hf : ∀ r, ∀ id ∈ l, Linked r.document → Linked (f r id).document) :
    Linked (l.foldl f r).document :=
  List.foldlRecOn (motive := fun r' : Run σ ↦ Linked r'.document) l f h fun r' h' id hid ↦
    hf r' id hid h'

theorem mem_inState_ne_root (h : Linked d) {state : EntryState} (hid : id ∈ d.inState b state) :
    id ≠ Document.root := by
  unfold Document.inState at hid
  split at hid
  · next s hs =>
    obtain ⟨e, he, -, rfl⟩ := Store.mem_inState.mp hid
    exact h.ne_root_of_mem hs (Store.mem_nodes_of_mem he)
  · simp at hid

theorem block (h : Linked r.document) (w : Writer σ) (fuel : Nat) (b : NodeId) :
    Linked (r.block w fuel b).document := by
  induction fuel generalizing b r with
  | zero => exact h
  | succ fuel ih =>
    have hdel := h.foldl_run (f := Run.delete w b) (l := r.document.inState b .toBeRemoved)
      fun r id _ hr ↦ hr.delete b id
    have hcreate := hdel.foldl_run (f := Run.create w b) (l := Document.inState _ b .toBeAdded)
      fun r id hid hr ↦ hr.create b (hdel.mem_inState_ne_root hid)
    rw [Run.block]
    refine settle (foldl_run (foldl_run hcreate ?_) ?_) b
    · exact fun r id _ hr ↦ hr.flush b id fun i r' hr' ↦ ih hr' i
    · exact fun r id _ hr ↦ hr.relocate b id

theorem settleWithin (h : Linked d) (fuel : Nat) (b : NodeId) : Linked (d.settleWithin fuel b) := by
  refine settleWithin_induction (fun d b id hd hown ↦ ?_) (fun d b id hd _ ↦ hd.purge b id)
    (fun d b hd ↦ hd.settleAll b) (fun d id hd ↦ hd.commit id) (fun d b hd ↦ hd.markWritten b) h
    fuel b
  obtain ⟨n, hn, hp⟩ := isOwnedBy_iff.mp hown
  exact hd.purge_release (hd.ne_root_of_parent hn hp)

theorem writeMain (h : Linked d) (w : Writer σ) (st : σ) : Linked (d.writeMain w st).document := by
  have hrun :
      Linked (Run.block w d.nodes.size Document.root { document := d, writer := st }).document :=
    block h w _ _
  unfold Document.writeMain
  split
  · simp only
    split
    · exact hrun.markWritten Document.root
    · exact hrun
  · exact h

theorem apply (h : Linked d) (w : Writer σ) (st : σ) : Linked (d.apply w st).document := by
  rw [apply_eq]
  exact settleOverlays_induction (h.writeMain w st) fun _ fuel o _ hd ↦ hd.settleWithin fuel o

end Linked

end Document

end BuildScript
