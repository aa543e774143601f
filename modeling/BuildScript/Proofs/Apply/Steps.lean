import BuildScript.Document.Apply

namespace BuildScript

/-- The node that a creation leaves: a leaf is written with its value, a container waits for what is
inside it. -/
def Node.createdAt (range : SourceRange) (n : Node) : Node :=
  let n := { n with source := some range }
  if n.isContainer then n else n.commit.markWritten

theorem Node.modified_createdAt (range : SourceRange) (n : Node) :
    (n.createdAt range).modified = (n.modified && n.isContainer) := by
  have hc : ({ n with source := some range } : Node).isContainer = n.isContainer := rfl
  simp only [createdAt, hc]
  cases n.isContainer <;> simp [markWritten]

def Entry.createdAt (range : SourceRange) (e : Entry) : Entry :=
  { e with state := .existing, existsInSource := range.isBacked, staged := false }

def Entry.relocated (e : Entry) : Entry := { e with state := .existing }

namespace Run

variable {σ : Type} {w : Writer σ} {b id : NodeId} {r : Run σ}

def request (r : Run σ) (step : Step) (b id : NodeId) (n : Node) : Call :=
  { step, target := r.document.target b id n }

def relocation (r : Run σ) (b id : NodeId) (n : Node) : Call :=
  { r.request .relocate b id n with
    newIndex := some (((r.document.store? b).bind (·.logicalIndex? id)).getD 0) }

def pass (w : Writer σ) (r : Run σ) (call : Call) (document : Document) (report : Report) : Run σ :=
  { r with document, writer := w.next r.writer call, report }

inductive Deletion (w : Writer σ) (b id : NodeId) (r : Run σ) : Run σ → Prop
  | foreign : (∀ n, r.document.node? id = some n → n.parent ≠ some b) →
      Deletion w b id r { r with document := r.document.purge b id }
  | unwritten {n : Node} : r.document.node? id = some n → n.parent = some b →
      r.document.isNeverWritten b id = true →
      Deletion w b id r { r with document := (r.document.purge b id).release id }
  | refused {n : Node} {message : String} : r.document.node? id = some n → n.parent = some b →
      r.document.isNeverWritten b id = false →
      w.refusal? r.writer (r.request .delete b id n) = some message →
      Deletion w b id r (r.fail w (r.request .delete b id n) message).unclean
  | deleted {n : Node} : r.document.node? id = some n → n.parent = some b →
      r.document.isNeverWritten b id = false →
      w.refusal? r.writer (r.request .delete b id n) = none →
      Deletion w b id r (r.pass w (r.request .delete b id n)
        ((r.document.purge b id).release id)
        { r.report with deleted := r.report.deleted ++ [id] })

theorem deletion (w : Writer σ) (b id : NodeId) (r : Run σ) :
    Deletion w b id r (r.delete w b id) := by
  simp only [delete]
  split
  · next hn => exact .foreign fun n hn' ↦ by simp [hn] at hn'
  · next n hn =>
    split
    · next hp =>
      refine .foreign fun n' hn' ↦ ?_
      rw [hn] at hn'
      cases hn'
      exact hp
    · next hp =>
      have hp' : n.parent = some b := Classical.not_not.mp hp
      split
      · next hw => exact .unwritten hn hp' hw
      · next hw =>
        have hw' := Bool.eq_false_iff.mpr hw
        split
        · next message hm => exact .refused hn hp' hw' hm
        · next hm => exact .deleted hn hp' hw' hm

inductive Creation (w : Writer σ) (b id : NodeId) (r : Run σ) : Run σ → Prop
  | dead : r.document.node? id = none → Creation w b id r r
  | refused {n : Node} {message : String} : r.document.node? id = some n →
      w.refusal? r.writer (r.request .create b id n) = some message →
      Creation w b id r { r.fail w (r.request .create b id n) message with
        document := (r.document.purge b id).release id }
  | created {n : Node} (range : SourceRange) : r.document.node? id = some n →
      w.refusal? r.writer (r.request .create b id n) = none →
      Creation w b id r (r.pass w (r.request .create b id n)
        ((r.document.modifyNode id (·.createdAt range)).modifyEntry b id (·.createdAt range))
        { r.report with created := r.report.created ++ [id] })

theorem creation (w : Writer σ) (b id : NodeId) (r : Run σ) :
    Creation w b id r (r.create w b id) := by
  simp only [create]
  split
  · next hn => exact .dead hn
  · next n hn =>
    split
    · next message hm => exact .refused hn hm
    · next hm => exact .created (w.range r.writer (r.request .create b id n)) hn hm

inductive Flush (w : Writer σ) (inner : NodeId → Run σ → Run σ) (b id : NodeId) (r : Run σ) :
    Run σ → Prop
  | idle : (∀ n, r.document.node? id = some n → n.modified = false) → Flush w inner b id r r
  | inside {n : Node} : r.document.node? id = some n → n.modified = true → n.isContainer = true →
      (inner id { r with clean := true }).clean = false →
      Flush w inner b id r (inner id { r with clean := true })
  | settled {n : Node} : r.document.node? id = some n → n.modified = true → n.isContainer = true →
      (inner id { r with clean := true }).clean = true →
      Flush w inner b id r { inner id { r with clean := true } with
        document := (inner id { r with clean := true }).document.modifyNode id Node.markWritten
        clean := r.clean }
  | refused {n : Node} {message : String} : r.document.node? id = some n → n.modified = true →
      n.isContainer = false → w.refusal? r.writer (r.request .flush b id n) = some message →
      Flush w inner b id r (r.fail w (r.request .flush b id n) message).unclean
  | flushed {n : Node} : r.document.node? id = some n → n.modified = true →
      n.isContainer = false → w.refusal? r.writer (r.request .flush b id n) = none →
      Flush w inner b id r (r.pass w (r.request .flush b id n)
        (r.document.modifyNode id (·.commit.markWritten))
        { r.report with flushed := r.report.flushed ++ [id] })

theorem flushing (w : Writer σ) (inner : NodeId → Run σ → Run σ) (b id : NodeId) (r : Run σ) :
    Flush w inner b id r (r.flush w inner b id) := by
  simp only [flush]
  split
  · next hn => exact .idle fun n hn' ↦ by simp [hn] at hn'
  · next n hn =>
    split
    · next hm =>
      refine .idle fun n' hn' ↦ ?_
      rw [hn] at hn'
      cases hn'
      simpa using hm
    · next hm =>
      have hm' : n.modified = true := by simpa using hm
      split
      · next hc =>
        split
        · next ha => exact .settled hn hm' hc ha
        · next ha => exact .inside hn hm' hc (Bool.eq_false_iff.mpr ha)
      · next hc =>
        have hc' := Bool.eq_false_iff.mpr hc
        split
        · next message hr => exact .refused hn hm' hc' hr
        · next hr => exact .flushed hn hm' hc' hr

inductive Relocation (w : Writer σ) (b id : NodeId) (r : Run σ) : Run σ → Prop
  | dead : r.document.node? id = none → Relocation w b id r r
  | refused {n : Node} {message : String} : r.document.node? id = some n →
      w.refusal? r.writer (r.relocation b id n) = some message →
      Relocation w b id r (r.fail w (r.relocation b id n) message).unclean
  | relocated {n : Node} : r.document.node? id = some n →
      w.refusal? r.writer (r.relocation b id n) = none →
      Relocation w b id r (r.pass w (r.relocation b id n)
        (r.document.modifyEntry b id Entry.relocated)
        { r.report with relocated := r.report.relocated ++ [id] })

theorem relocating (w : Writer σ) (b id : NodeId) (r : Run σ) :
    Relocation w b id r (r.relocate w b id) := by
  simp only [relocate]
  split
  · next hn => exact .dead hn
  · next n hn =>
    split
    · next message hm => exact .refused hn hm
    · next hm => exact .relocated hn hm

def deletions (w : Writer σ) (b : NodeId) (r : Run σ) : Run σ :=
  (r.document.inState b .toBeRemoved).foldl (delete w b) r

def creations (w : Writer σ) (b : NodeId) (r : Run σ) : Run σ :=
  (r.document.inState b .toBeAdded).foldl (create w b) r

def flushes (w : Writer σ) (fuel : Nat) (b : NodeId) (r : Run σ) : Run σ :=
  (r.document.placeable b).foldl (flush w (block w fuel) b) r

def relocations (w : Writer σ) (b : NodeId) (r : Run σ) : Run σ :=
  (r.document.inState b .moved).foldl (relocate w b) r

def phases (w : Writer σ) (fuel : Nat) (b : NodeId) (r : Run σ) : Run σ :=
  (((r.deletions w b).creations w b).flushes w fuel b).relocations w b

theorem block_succ (w : Writer σ) (fuel : Nat) (b : NodeId) (r : Run σ) :
    r.block w (fuel + 1) b =
      { r.phases w fuel b with
        document := (r.phases w fuel b).document.modifyStore b Store.settle } := rfl

end Run

namespace Document

variable {σ : Type}

def writeMain (d : Document) (w : Writer σ) (st : σ) : Run σ :=
  if d.isModified root then
    let r := Run.block w d.nodes.size root { document := d, writer := st }
    { r with document :=
        if r.clean then r.document.modifyNode root Node.markWritten else r.document }
  else { document := d, writer := st }

def settleOverlays (d : Document) : Document :=
  d.overlays.foldl (fun d overlay ↦ if d.isModified overlay then d.settleOverlay overlay else d) d

theorem settleWithin_induction {P : Document → Prop}
    (hdrop : ∀ d b id, P d → d.isOwnedBy id b → P ((d.purge b id).release id))
    (hpurge : ∀ d b id, P d → ¬ d.isOwnedBy id b → P (d.purge b id))
    (hall : ∀ d b, P d → P (d.modifyStore b Store.settleAll))
    (hcommit : ∀ d id, P d → P (d.modifyNode id (·.commit.markWritten)))
    (hmark : ∀ d b, P d → P (d.modifyNode b Node.markWritten))
    {d : Document} (h : P d) (fuel : Nat) (b : NodeId) : P (d.settleWithin fuel b) := by
  induction fuel generalizing d b with
  | zero => exact h
  | succ fuel ih =>
    rw [settleWithin]
    refine hmark _ b (List.foldlRecOn _ _ (hall _ b (List.foldlRecOn _ _ h ?_)) ?_)
    · intro d hd id _
      split
      · next hown => exact hdrop d b id hd hown
      · next hown => exact hpurge d b id hd hown
    · intro d hd id _
      split
      · exact hd
      · split
        · exact ih hd id
        · exact hcommit d id hd

theorem settleOverlays_induction {P : Document → Prop} {d : Document} (h : P d)
    (hstep : ∀ d' fuel o, o ∈ d.overlays → P d' → P (d'.settleWithin fuel o)) :
    P d.settleOverlays :=
  List.foldlRecOn _ _ h fun d' hd o ho ↦ by
    split
    · exact hstep d' _ o ho hd
    · exact hd

theorem apply_eq (d : Document) (w : Writer σ) (st : σ) :
    d.apply w st =
      { d.writeMain w st with document := (d.writeMain w st).document.settleOverlays } := by
  cases h : d.isModified root <;> simp [apply, writeMain, settleOverlays, h]

end Document

end BuildScript
