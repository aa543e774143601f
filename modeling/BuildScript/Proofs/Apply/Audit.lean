import BuildScript.Proofs.Apply.Steps

namespace BuildScript

/-- Calls with the messages of those that were refused. -/
abbrev Log := List (Call × Option String)

namespace Log

def accepted (step : Step) (log : Log) : List NodeId :=
  log.filterMap fun (call, refusal) ↦
    if call.step = step ∧ refusal = none then some call.target.id else none

def failures (log : Log) : List Failure :=
  log.filterMap fun (call, refusal) ↦
    refusal.map fun message ↦ ⟨call.target.id, call.name, call.step, message⟩

def refusedCreations (log : Log) : List NodeId :=
  log.filterMap fun (call, refusal) ↦
    if call.step = .create ∧ refusal ≠ none then some call.target.id else none

end Log

def Report.ofLog (log : Log) : Report where
  deleted := Log.accepted .delete log
  created := Log.accepted .create log
  flushed := Log.accepted .flush log
  relocated := Log.accepted .relocate log
  failures := Log.failures log

def Report.accept (r : Report) (step : Step) (id : NodeId) : Report :=
  match step with
  | .delete => { r with deleted := r.deleted ++ [id] }
  | .create => { r with created := r.created ++ [id] }
  | .flush => { r with flushed := r.flushed ++ [id] }
  | .relocate => { r with relocated := r.relocated ++ [id] }

theorem Report.ofLog_accept (log : Log) (call : Call) :
    ofLog (log ++ [(call, none)]) = (ofLog log).accept call.step call.target.id := by
  obtain ⟨step, target, newIndex⟩ := call
  cases step <;> simp [ofLog, accept, Log.accepted, Log.failures]

theorem Report.ofLog_refuse (log : Log) (call : Call) (message : String) :
    ofLog (log ++ [(call, some message)]) =
      { ofLog log with
        failures := (ofLog log).failures ++
          [⟨call.target.id, call.name, call.step, message⟩] } := by
  simp [ofLog, Log.accepted, Log.failures]

namespace Writer

variable {σ τ : Type}

def audited (w : Writer σ) : Writer (σ × Log) where
  refusal? s := w.refusal? s.1
  range s := w.range s.1
  next s call := (w.next s.1 call, s.2 ++ [(call, w.refusal? s.1 call)])

/-- Seen through `f`, the writer `v` does what `w` does. -/
structure Simulates (v : Writer τ) (w : Writer σ) (f : τ → σ) : Prop where
  refusal? : ∀ t call, v.refusal? t call = w.refusal? (f t) call
  range : ∀ t call, v.range t call = w.range (f t) call
  next : ∀ t call, f (v.next t call) = w.next (f t) call

theorem simulates_audited (w : Writer σ) : Simulates w.audited w Prod.fst :=
  ⟨fun _ _ ↦ rfl, fun _ _ ↦ rfl, fun _ _ ↦ rfl⟩

theorem simulates_recorded {v : Writer τ} (hv : ∀ t call, v.refusal? t call = none) :
    Simulates v.recorded v.audited fun s ↦ (s.1, s.2.map (·, none)) where
  refusal? _ _ := rfl
  range _ _ := rfl
  next s call := by simp [recorded, audited, hv]

end Writer

namespace Run

variable {σ τ : Type} {v : Writer τ} {w : Writer σ} {f : τ → σ} {b id : NodeId} {r : Run τ}

def forget (f : τ → σ) (r : Run τ) : Run σ :=
  { document := r.document, writer := f r.writer, report := r.report, clean := r.clean }

theorem forget_delete (h : v.Simulates w f) (b id : NodeId) (r : Run τ) :
    (r.delete v b id).forget f = (r.forget f).delete w b id := by
  cases hn : r.document.node? id with
  | none => simp [delete, forget, hn]
  | some n =>
    by_cases hp : n.parent = some b
    · cases hw : r.document.isNeverWritten b id with
      | true => simp [delete, forget, hn, hp, hw]
      | false =>
        have ha := h.refusal? r.writer (r.request .delete b id n)
        cases hm : v.refusal? r.writer (r.request .delete b id n) with
        | none => simp_all [delete, forget, request, h.next]
        | some message => simp_all [delete, forget, request, fail, unclean, h.next]
    · simp [delete, forget, hn, hp]

theorem create_of_accepted {n : Node} (hn : r.document.node? id = some n)
    (hm : v.refusal? r.writer (r.request .create b id n) = none) :
    r.create v b id = r.pass v (r.request .create b id n)
      ((r.document.modifyNode id
        (·.createdAt (v.range r.writer (r.request .create b id n)))).modifyEntry
        b id (·.createdAt (v.range r.writer (r.request .create b id n))))
      { r.report with created := r.report.created ++ [id] } := by
  simp only [request] at hm
  simp only [create, hn, hm]
  rfl

theorem forget_create (h : v.Simulates w f) (b id : NodeId) (r : Run τ) :
    (r.create v b id).forget f = (r.forget f).create w b id := by
  cases hn : r.document.node? id with
  | none => simp [create, forget, hn]
  | some n =>
    have ha := h.refusal? r.writer (r.request .create b id n)
    cases hm : v.refusal? r.writer (r.request .create b id n) with
    | none =>
      rw [create_of_accepted hn hm, create_of_accepted (r := r.forget f) hn (ha.symm.trans hm)]
      simp only [pass, forget, request, h.next, h.range]
    | some message => simp_all [create, forget, request, fail, h.next]

theorem forget_relocate (h : v.Simulates w f) (b id : NodeId) (r : Run τ) :
    (r.relocate v b id).forget f = (r.forget f).relocate w b id := by
  cases hn : r.document.node? id with
  | none => simp [relocate, forget, hn]
  | some n =>
    have ha := h.refusal? r.writer (r.relocation b id n)
    cases hm : v.refusal? r.writer (r.relocation b id n) with
    | none => simp_all [relocate, forget, relocation, request, h.next]
    | some message => simp_all [relocate, forget, relocation, request, fail, unclean, h.next]

theorem forget_flush (h : v.Simulates w f) {inner : NodeId → Run τ → Run τ}
    {inner' : NodeId → Run σ → Run σ}
    (hin : ∀ i r, (inner i r).forget f = inner' i (r.forget f)) (b id : NodeId) (r : Run τ) :
    (r.flush v inner b id).forget f = (r.forget f).flush w inner' b id := by
  cases hn : r.document.node? id with
  | none => simp [flush, forget, hn]
  | some n =>
    cases hmod : n.modified with
    | false => simp [flush, forget, hn, hmod]
    | true =>
      cases hc : n.isContainer with
      | true =>
        have hi : inner' id { r.forget f with clean := true } =
            (inner id { r with clean := true }).forget f := (hin id { r with clean := true }).symm
        cases hcl : (inner id { r with clean := true }).clean <;>
          simp_all [flush, forget]
      | false =>
        have ha := h.refusal? r.writer (r.request .flush b id n)
        cases hm : v.refusal? r.writer (r.request .flush b id n) with
        | none => simp_all [flush, forget, request, h.next]
        | some message => simp_all [flush, forget, request, fail, unclean, h.next]

theorem forget_foldl {g : Run τ → NodeId → Run τ} {g' : Run σ → NodeId → Run σ}
    (hg : ∀ r id, (g r id).forget f = g' (r.forget f) id) (l : List NodeId) (r : Run τ) :
    (l.foldl g r).forget f = l.foldl g' (r.forget f) := by
  induction l generalizing r with
  | nil => rfl
  | cons id l ih => rw [List.foldl_cons, List.foldl_cons, ih, hg]

theorem forget_phases (h : v.Simulates w f) {fuel : Nat}
    (hin : ∀ i r, (Run.block v fuel i r).forget f = (r.forget f).block w fuel i) (b : NodeId)
    (r : Run τ) : (r.phases v fuel b).forget f = (r.forget f).phases w fuel b := by
  have hdelete : ∀ r, (deletions v b r).forget f = (r.forget f).deletions w b := fun r ↦
    forget_foldl (fun r id ↦ forget_delete h b id r) _ r
  have hcreate : ∀ r, (creations v b r).forget f = (r.forget f).creations w b := fun r ↦
    forget_foldl (fun r id ↦ forget_create h b id r) _ r
  have hflush : ∀ r, (flushes v fuel b r).forget f = (r.forget f).flushes w fuel b := fun r ↦
    forget_foldl (fun r id ↦ forget_flush h hin b id r) _ r
  have hrelocate : ∀ r, (relocations v b r).forget f = (r.forget f).relocations w b := fun r ↦
    forget_foldl (fun r id ↦ forget_relocate h b id r) _ r
  rw [phases, phases, hrelocate, hflush, hcreate, hdelete]

theorem forget_block (h : v.Simulates w f) (fuel : Nat) (b : NodeId) (r : Run τ) :
    (r.block v fuel b).forget f = (r.forget f).block w fuel b := by
  induction fuel generalizing b r with
  | zero => rfl
  | succ fuel ih =>
    rw [block_succ, block_succ, ← forget_phases h ih b r]
    simp only [forget]

def Accounted (r : Run (σ × Log)) : Prop := r.report = .ofLog r.writer.2

section Account

variable {r : Run (σ × Log)} {call : Call}

theorem Accounted.fail (h : Accounted r) {message : String}
    (hm : w.audited.refusal? r.writer call = some message) :
    Accounted (r.fail w.audited call message) := by
  have hlog : (r.fail w.audited call message).writer.2 = r.writer.2 ++ [(call, some message)] :=
    congrArg (fun a ↦ r.writer.2 ++ [(call, a)]) hm
  rw [Accounted, hlog, Report.ofLog_refuse, ← h]
  rfl

theorem Accounted.pass (h : Accounted r) (hm : w.audited.refusal? r.writer call = none)
    (d : Document) :
    Accounted (r.pass w.audited call d (r.report.accept call.step call.target.id)) := by
  have hlog : (r.pass w.audited call d (r.report.accept call.step call.target.id)).writer.2 =
      r.writer.2 ++ [(call, none)] := congrArg (fun a ↦ r.writer.2 ++ [(call, a)]) hm
  rw [Accounted, hlog, Report.ofLog_accept, ← h]
  rfl

theorem Accounted.delete (h : Accounted r) (b id : NodeId) :
    Accounted (r.delete w.audited b id) := by
  have hstep := Run.deletion w.audited b id r
  generalize r.delete w.audited b id = r' at hstep
  cases hstep with
  | foreign => exact h
  | unwritten => exact h
  | refused _ _ _ hm => exact h.fail hm
  | deleted _ _ _ hm => exact h.pass hm _

theorem Accounted.create (h : Accounted r) (b id : NodeId) :
    Accounted (r.create w.audited b id) := by
  have hstep := Run.creation w.audited b id r
  generalize r.create w.audited b id = r' at hstep
  cases hstep with
  | dead => exact h
  | refused _ hm => exact h.fail hm
  | created _ _ hm => exact h.pass hm _

theorem Accounted.relocate (h : Accounted r) (b id : NodeId) :
    Accounted (r.relocate w.audited b id) := by
  have hstep := Run.relocating w.audited b id r
  generalize r.relocate w.audited b id = r' at hstep
  cases hstep with
  | dead => exact h
  | refused _ hm => exact h.fail hm
  | relocated _ hm => exact h.pass hm _

theorem Accounted.flush {inner : NodeId → Run (σ × Log) → Run (σ × Log)} (h : Accounted r)
    (hin : ∀ i r, Accounted r → Accounted (inner i r)) (b id : NodeId) :
    Accounted (r.flush w.audited inner b id) := by
  have hinner := hin id { r with clean := true } h
  have hstep := Run.flushing w.audited inner b id r
  generalize r.flush w.audited inner b id = r' at hstep
  cases hstep with
  | idle => exact h
  | inside => exact hinner
  | settled => exact hinner
  | refused _ _ _ hm => exact h.fail hm
  | flushed _ _ _ hm => exact h.pass hm _

theorem Accounted.foldl {g : Run (σ × Log) → NodeId → Run (σ × Log)}
    (hg : ∀ r id, Accounted r → Accounted (g r id)) (l : List NodeId) (h : Accounted r) :
    Accounted (l.foldl g r) :=
  List.foldlRecOn (motive := Accounted) l g h fun r hr id _ ↦ hg r id hr

theorem Accounted.block (h : Accounted r) (w : Writer σ) (fuel : Nat) (b : NodeId) :
    Accounted (r.block w.audited fuel b) := by
  induction fuel generalizing b r with
  | zero => exact h
  | succ fuel ih =>
    have hdel : Accounted (r.deletions w.audited b) := .foldl (fun _ id hr ↦ hr.delete b id) _ h
    have hcreate : Accounted ((r.deletions w.audited b).creations w.audited b) :=
      .foldl (fun _ id hr ↦ hr.create b id) _ hdel
    have hflush : Accounted
        (((r.deletions w.audited b).creations w.audited b).flushes w.audited fuel b) :=
      .foldl (fun _ id hr ↦ hr.flush (fun i _ hr ↦ ih hr i) b id) _ hcreate
    have hphases : Accounted (r.phases w.audited fuel b) :=
      .foldl (fun _ id hr ↦ hr.relocate b id) _ hflush
    rw [block_succ]
    generalize r.phases w.audited fuel b = r' at hphases
    exact hphases

end Account

end Run

namespace Document

variable {σ τ : Type} {v : Writer τ} {w : Writer σ} {f : τ → σ}

theorem forget_writeMain (h : v.Simulates w f) (d : Document) (t : τ) :
    (d.writeMain v t).forget f = d.writeMain w (f t) := by
  have hblock := Run.forget_block h d.nodes.size root { document := d, writer := t }
  unfold writeMain
  split
  · have hstart : Run.forget f { document := d, writer := t } =
        { document := d, writer := f t } := rfl
    rw [hstart] at hblock
    rw [← hblock]
    rfl
  · rfl

def audit (d : Document) (w : Writer σ) (s : σ) : Log := (d.apply w.audited (s, [])).writer.2

theorem audit_eq (d : Document) (w : Writer σ) (s : σ) :
    d.audit w s = (d.writeMain w.audited (s, [])).writer.2 := by
  rw [audit, apply_eq]

theorem forget_apply (h : v.Simulates w f) (d : Document) (t : τ) :
    (d.apply v t).forget f = d.apply w (f t) := by
  rw [apply_eq, apply_eq, ← forget_writeMain h d t]
  rfl

theorem audit_eq_recorded (hv : ∀ t call, v.refusal? t call = none) (d : Document) (t : τ) :
    d.audit v t = (d.apply v.recorded (t, [])).writer.2.map (·, none) := by
  have hwriter := congrArg Run.writer (forget_apply (Writer.simulates_recorded hv) d (t, []))
  exact (congrArg Prod.snd hwriter).symm

theorem report_apply (d : Document) (w : Writer σ) (s : σ) :
    (d.apply w s).report = .ofLog (d.audit w s) := by
  have hstart : Run.Accounted (⟨d, (s, []), {}, true⟩ : Run (σ × Log)) := rfl
  have hmain : Run.Accounted (d.writeMain w.audited (s, [])) := by
    have hblock := hstart.block w d.nodes.size root
    unfold writeMain
    split
    · generalize Run.block w.audited d.nodes.size root _ = r at hblock
      exact hblock
    · exact hstart
  have hreport := congrArg Run.report (forget_apply w.simulates_audited d (s, []))
  rw [← hreport, audit, apply_eq]
  exact hmain

end Document

end BuildScript
