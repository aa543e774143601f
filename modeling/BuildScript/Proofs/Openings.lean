import BuildScript.Proofs.Grounds

namespace BuildScript

namespace Document

variable {d : Document} {b id : NodeId} {log log' : Log} {call : Call}

/-- A block that an apply comes to after the calls in `log`: the root, or one that is due for a
flush as a leaf would be. -/
def Opened (d : Document) (log : Log) (b : NodeId) : Prop :=
  b = root ∨ ∃ call, Grounded d log call ∧ call.step = .flush ∧ call.target.id = b

theorem Grounded.mono (h : Grounded d log call)
    (hsub : Log.accepted .create log ⊆ Log.accepted .create log') : Grounded d log' call := by
  obtain ⟨hb, d₁, s, e, n, hc, hrest⟩ := h
  exact ⟨hb, d₁, s, e, n, hc.mono fun _ _ hx ↦ hsub hx, hrest⟩

theorem Opened.mono (h : Opened d log b)
    (hsub : Log.accepted .create log ⊆ Log.accepted .create log') : Opened d log' b :=
  h.imp_right fun ⟨call, hc, hrest⟩ ↦ ⟨call, hc.mono hsub, hrest⟩

/-- An apply that has come to the block `b`, and all of whose calls are inside blocks that it had
come to. -/
structure Inside (d : Document) (b : NodeId) (log : Log) : Prop where
  calls : log.Each fun before call ↦ Opened d before call.target.block
  opened : Opened d log b

theorem Inside.append (h : Inside d b log) (hb : call.target.block = b)
    (refusal : Option String) : Inside d b (log ++ [(call, refusal)]) where
  calls := h.calls.append (hb ▸ h.opened) refusal
  opened := h.opened.mono <| by
    simp only [Log.accepted, List.filterMap_append]
    exact List.subset_append_left _ _

end Document

namespace Run

open Document

variable {σ : Type} {w : Writer σ} {d : Document} {b id : NodeId} {r r₁ : Run (σ × Log)}

theorem inside_delete (h : Inside d b r.writer.2) (id : NodeId) :
    Inside d b (r.delete w.audited b id).writer.2 := by
  have hd := deletion w.audited b id r
  generalize r.delete w.audited b id = r' at hd
  cases hd with
  | foreign => exact h
  | unwritten => exact h
  | refused => exact h.append rfl _
  | deleted => exact h.append rfl _

theorem inside_create (h : Inside d b r.writer.2) (id : NodeId) :
    Inside d b (r.create w.audited b id).writer.2 := by
  have hd := creation w.audited b id r
  generalize r.create w.audited b id = r' at hd
  cases hd with
  | dead => exact h
  | refused => exact h.append rfl _
  | created => exact h.append rfl _

theorem inside_relocate (h : Inside d b r.writer.2) (id : NodeId) :
    Inside d b (r.relocate w.audited b id).writer.2 := by
  have hd := relocating w.audited b id r
  generalize r.relocate w.audited b id = r' at hd
  cases hd with
  | dead => exact h
  | refused => exact h.append rfl _
  | relocated => exact h.append rfl _

theorem inside_foldl {f : Run (σ × Log) → NodeId → Run (σ × Log)} {l : List NodeId}
    (hf : ∀ (r : Run (σ × Log)) id, Inside d b r.writer.2 → Inside d b (f r id).writer.2)
    (h : Inside d b r.writer.2) : Inside d b (l.foldl f r).writer.2 :=
  List.foldlRecOn (motive := fun r : Run (σ × Log) ↦ Inside d b r.writer.2) l f h
    fun r h id _ ↦ hf r id h

theorem inside_relocations (h : Inside d b r.writer.2) :
    Inside d b (r.relocations w.audited b).writer.2 :=
  inside_foldl (fun _ id h ↦ inside_relocate h id) h

/-- A flush goes into a block only if that is due for it. -/
theorem inside_flush {fuel : Nat} (h₁ : Tracks d r₁) (hc₁ : Continues r₁ r) (h : Tracks d r)
    (hb : Below d root b) (hi : Inside d b r.writer.2)
    (hin : ∀ id (r : Run (σ × Log)), Tracks d r → Below d root id → Inside d id r.writer.2 →
      Inside d id (r.block w.audited fuel id).writer.2)
    (hadded : ∀ s e, r₁.document.store? b = some s → e ∈ s.entries → e.state = .toBeAdded →
      r₁.document.node? e.node = none)
    (hid : id ∈ r₁.document.placeable b) :
    Inside d b (r.flush w.audited (block w.audited fuel) b id).writer.2 := by
  have hinner : ∀ n, r.document.node? id = some n →
      Inside d b (block w.audited fuel id { r with clean := true }).writer.2 := by
    intro n hn
    have hdue := h₁.due hc₁ h.accounted hb hadded hid hn
    have hcalls := (hin id _ h.restart hdue.below.2
      ⟨hi.calls, .inr ⟨_, hdue, rfl, rfl⟩⟩).calls
    have hcreated :=
      (Continues.block w.audited fuel id { r with clean := true } h.restart.linked).created
    rw [Tracks.created h.restart.accounted,
      Tracks.created (h.restart.accounted.block w fuel id)] at hcreated
    exact ⟨hcalls, hi.opened.mono hcreated⟩
  have hd := flushing w.audited (block w.audited fuel) b id r
  generalize r.flush w.audited (block w.audited fuel) b id = r' at hd
  cases hd with
  | idle => exact hi
  | inside hn => exact hinner _ hn
  | settled hn => exact hinner _ hn
  | refused => exact hi.append rfl _
  | flushed => exact hi.append rfl _

theorem inside_flushes {fuel : Nat} (h : Tracks d r) (hb : Below d root b)
    (hi : Inside d b r.writer.2)
    (hin : ∀ id (r : Run (σ × Log)), Tracks d r → Below d root id → Inside d id r.writer.2 →
      Inside d id (r.block w.audited fuel id).writer.2)
    (hadded : ∀ s e, r.document.store? b = some s → e ∈ s.entries → e.state = .toBeAdded →
      r.document.node? e.node = none) : Inside d b (r.flushes w.audited fuel b).writer.2 := by
  refine (List.foldlRecOn (motive := fun r' : Run (σ × Log) ↦
    Tracks d r' ∧ Continues r r' ∧ Inside d b r'.writer.2) (r.document.placeable b) _
    ⟨h, .refl r, hi⟩ fun r' ⟨h', hc, hi'⟩ id hid ↦ ⟨?_, ?_, ?_⟩).2.2
  · exact h.flush hc h' hb (fun id r h hb ↦ h.block w fuel id r hb) hadded hid
  · exact hc.trans (.flush b id (.block w.audited fuel id { r' with clean := true } h'.linked))
  · exact inside_flush h hc h' hb hi' hin hadded hid

theorem inside_block (w : Writer σ) (fuel : Nat) (b : NodeId) (r : Run (σ × Log)) (h : Tracks d r)
    (hb : Below d root b) (hi : Inside d b r.writer.2) :
    Inside d b (r.block w.audited fuel b).writer.2 := by
  induction fuel generalizing b r with
  | zero => exact hi
  | succ fuel ih =>
    have hdel := h.deletions (w := w) hb
    have hcre := hdel.creations (w := w) hb
    have hidel : Inside d b (r.deletions w.audited b).writer.2 :=
      inside_foldl (fun _ id h ↦ inside_delete h id) hi
    have hicre : Inside d b ((r.deletions w.audited b).creations w.audited b).writer.2 :=
      inside_foldl (fun _ id h ↦ inside_create h id) hidel
    have hiflu := inside_flushes hcre hb hicre ih
      fun s e hs he hst ↦ added_creations hdel.linked b hs he hst
    have hirel := inside_relocations (w := w) hiflu
    rw [← phases] at hirel
    rw [block_succ]
    generalize r.phases w.audited fuel b = r' at hirel ⊢
    exact hirel

end Run

namespace Document

variable {σ : Type} {d : Document}

/-- Each call of an apply is inside a block that the apply has come to. -/
theorem opened_audit (h : Linked d) (hb : Borrows d) (w : Writer σ) (st : σ) :
    (d.audit w st).Each fun before call ↦ Opened d before call.target.block := by
  have hstart := Run.Tracks.start h hb st
  rw [audit_eq, writeMain]
  split
  · exact (Run.inside_block w d.nodes.size root _ hstart .refl ⟨.nil, .inl rfl⟩).calls
  · exact .nil

end Document

end BuildScript
