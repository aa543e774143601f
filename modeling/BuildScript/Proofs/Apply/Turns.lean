import BuildScript.Proofs.Grounds

namespace BuildScript.Run

open Document

variable {σ : Type} {w : Writer σ} {fuel : Nat} {b c id x : NodeId} {step : Step} {call : Call}
  {Q : Log → Call → Prop}

/-- The moments in the write of a block at which the turn of one of its entries comes: the step that
is taken, the node of the entry, and the run up to there. -/
inductive Turn (w : Writer σ) (fuel : Nat) (b : NodeId) (r : Run σ) : Step → NodeId → Run σ → Prop
  | delete {front back : List NodeId} {id : NodeId} :
      r.document.inState b .toBeRemoved = front ++ id :: back →
      Turn w fuel b r .delete id (front.foldl (Run.delete w b) r)
  | create {front back : List NodeId} {id : NodeId} :
      (r.deletions w b).document.inState b .toBeAdded = front ++ id :: back →
      Turn w fuel b r .create id (front.foldl (Run.create w b) (r.deletions w b))
  | flush {front back : List NodeId} {id : NodeId} :
      ((r.deletions w b).creations w b).document.placeable b = front ++ id :: back →
      Turn w fuel b r .flush id
        (front.foldl (Run.flush w (block w fuel) b) ((r.deletions w b).creations w b))
  | relocate {front back : List NodeId} {id : NodeId} :
      (((r.deletions w b).creations w b).flushes w fuel b).document.inState b .moved =
        front ++ id :: back →
      Turn w fuel b r .relocate id
        (front.foldl (Run.relocate w b) (((r.deletions w b).creations w b).flushes w fuel b))

/-- The turns in the write of a block and in those of the blocks that it goes into, where a
container is due for a flush. -/
inductive Moment (w : Writer σ) :
    Nat → NodeId → Run σ → Step → NodeId → NodeId → Run σ → Prop
  | here {fuel : Nat} {b id : NodeId} {r r' : Run σ} {step : Step} :
      Turn w fuel b r step id r' → Moment w (fuel + 1) b r step b id r'
  | inside {fuel : Nat} {b c id x : NodeId} {r r₁ r' : Run σ} {step : Step} {n : Node} :
      Turn w fuel b r .flush id r₁ → r₁.document.node? id = some n → n.modified = true →
      n.isContainer = true → Moment w fuel id { r₁ with clean := true } step c x r' →
      Moment w (fuel + 1) b r step c x r'

/-- What a call says in the middle of a run: the node and its anchor are read from the document as
it is then. -/
structure Asks (r : Run σ) (step : Step) (b id : NodeId) (call : Call) : Prop where
  step : call.step = step
  target : ∃ n, r.document.node? id = some n ∧ call.target = r.document.target b id n

theorem foldl_front {P : Run σ → Prop} {f : Run σ → NodeId → Run σ} {l : List NodeId} {r : Run σ}
    (h : P r) (hf : ∀ front id back, l = front ++ id :: back → P (front.foldl f r) →
      P (f (front.foldl f r) id)) : P (l.foldl f r) := by
  induction l using List.reverseRecOn with
  | nil => exact h
  | append_singleton l id ih =>
    rw [List.foldl_append, List.foldl_cons, List.foldl_nil]
    refine hf l id [] rfl (ih fun front i back heq ↦ ?_)
    exact hf front i (back ++ [id]) (by simp [heq])

section Log

variable {r : Run (σ × Log)}

theorem each_delete (h : r.writer.2.Each Q)
    (hQ : ∀ call, r.Asks .delete b id call → Q r.writer.2 call) :
    (r.delete w.audited b id).writer.2.Each Q := by
  have hd := deletion w.audited b id r
  generalize r.delete w.audited b id = r' at hd
  cases hd with
  | foreign => exact h
  | unwritten => exact h
  | refused hn => exact h.append (hQ _ ⟨rfl, _, hn, rfl⟩) _
  | deleted hn => exact h.append (hQ _ ⟨rfl, _, hn, rfl⟩) _

theorem each_create (h : r.writer.2.Each Q)
    (hQ : ∀ call, r.Asks .create b id call → Q r.writer.2 call) :
    (r.create w.audited b id).writer.2.Each Q := by
  have hd := creation w.audited b id r
  generalize r.create w.audited b id = r' at hd
  cases hd with
  | dead => exact h
  | refused hn => exact h.append (hQ _ ⟨rfl, _, hn, rfl⟩) _
  | created _ hn => exact h.append (hQ _ ⟨rfl, _, hn, rfl⟩) _

theorem each_flush {inner : NodeId → Run (σ × Log) → Run (σ × Log)} (h : r.writer.2.Each Q)
    (hQ : ∀ call, r.Asks .flush b id call → Q r.writer.2 call)
    (hin : ∀ n, r.document.node? id = some n → n.modified = true → n.isContainer = true →
      (inner id { r with clean := true }).writer.2.Each Q) :
    (r.flush w.audited inner b id).writer.2.Each Q := by
  have hd := flushing w.audited inner b id r
  generalize r.flush w.audited inner b id = r' at hd
  cases hd with
  | idle => exact h
  | inside hn hm hc => exact hin _ hn hm hc
  | settled hn hm hc => exact hin _ hn hm hc
  | refused hn => exact h.append (hQ _ ⟨rfl, _, hn, rfl⟩) _
  | flushed hn => exact h.append (hQ _ ⟨rfl, _, hn, rfl⟩) _

theorem each_relocate (h : r.writer.2.Each Q)
    (hQ : ∀ call, r.Asks .relocate b id call → Q r.writer.2 call) :
    (r.relocate w.audited b id).writer.2.Each Q := by
  have hd := relocating w.audited b id r
  generalize r.relocate w.audited b id = r' at hd
  cases hd with
  | dead => exact h
  | refused hn => exact h.append (hQ _ ⟨rfl, _, hn, rfl⟩) _
  | relocated hn => exact h.append (hQ _ ⟨rfl, _, hn, rfl⟩) _

theorem each_foldl {f : Run (σ × Log) → NodeId → Run (σ × Log)} {l : List NodeId}
    (h : r.writer.2.Each Q) (hf : ∀ front id back, l = front ++ id :: back →
      (front.foldl f r).writer.2.Each Q → (f (front.foldl f r) id).writer.2.Each Q) :
    (l.foldl f r).writer.2.Each Q :=
  foldl_front (P := fun r' : Run (σ × Log) ↦ r'.writer.2.Each Q) h hf

/-- The calls of a write are made at its moments. -/
theorem each_block (w : Writer σ) (fuel : Nat) (b : NodeId) (r : Run (σ × Log))
    (h : r.writer.2.Each Q)
    (hQ : ∀ {step c x call} {r' : Run (σ × Log)}, Moment w.audited fuel b r step c x r' →
      r'.Asks step c x call → Q r'.writer.2 call) : (r.block w.audited fuel b).writer.2.Each Q := by
  induction fuel generalizing b r with
  | zero => exact h
  | succ fuel ih =>
    have hdel : (r.deletions w.audited b).writer.2.Each Q := by
      rw [deletions]
      exact each_foldl h fun _ _ _ hl h' ↦ each_delete h' fun _ ↦ hQ (.here (.delete hl))
    have hcre : ((r.deletions w.audited b).creations w.audited b).writer.2.Each Q := by
      rw [creations]
      exact each_foldl hdel fun _ _ _ hl h' ↦ each_create h' fun _ ↦ hQ (.here (.create hl))
    have hflu : (((r.deletions w.audited b).creations w.audited b).flushes w.audited
        fuel b).writer.2.Each Q := by
      rw [flushes]
      refine each_foldl hcre fun _ _ _ hl h' ↦ ?_
      have hturn : Turn w.audited fuel b r .flush _ _ := .flush hl
      refine each_flush h' (fun _ ↦ hQ (.here hturn)) fun n hn hm hc ↦ ?_
      exact ih _ _ h' fun hmoment ↦ hQ (.inside hturn hn hm hc hmoment)
    have hrel : ((((r.deletions w.audited b).creations w.audited b).flushes w.audited
        fuel b).relocations w.audited b).writer.2.Each Q := by
      rw [relocations]
      exact each_foldl hflu fun _ _ _ hl h' ↦ each_relocate h' fun _ ↦ hQ (.here (.relocate hl))
    rw [← phases] at hrel
    rw [block_succ]
    generalize r.phases w.audited fuel b = r' at hrel ⊢
    exact hrel

end Log

end BuildScript.Run

namespace BuildScript.Document

variable {σ : Type} {d : Document}

def Moment (d : Document) (w : Writer σ) (st : σ) : Step → NodeId → NodeId → Run σ → Prop :=
  Run.Moment w d.nodes.size root { document := d, writer := st }

/-- Each call of an apply is made at one of its moments, and says what the document says then. -/
theorem moment_of_audit (d : Document) (w : Writer σ) (st : σ) {before after : Log}
    {p : Call × Option String} (hlog : d.audit w st = before ++ p :: after) :
    ∃ r, d.Moment w.audited (st, []) p.1.step p.1.target.block p.1.target.id r ∧
      r.writer.2 = before ∧ r.Asks p.1.step p.1.target.block p.1.target.id p.1 := by
  have heach : (d.audit w st).Each fun before call ↦
      ∃ r, d.Moment w.audited (st, []) call.step call.target.block call.target.id r ∧
        r.writer.2 = before ∧ r.Asks call.step call.target.block call.target.id call := by
    rw [audit_eq, writeMain]
    split
    · refine Run.each_block w d.nodes.size root _ .nil fun {step c x call r} hmoment hasks ↦ ?_
      obtain ⟨rfl, n, hn, htarget⟩ := hasks
      have hblock : call.target.block = c := by rw [htarget]; rfl
      have hid : call.target.id = x := by rw [htarget]; rfl
      rw [hblock, hid]
      exact ⟨r, hmoment, rfl, rfl, n, hn, htarget⟩
    · exact .nil
  exact heach before p after hlog

end BuildScript.Document
