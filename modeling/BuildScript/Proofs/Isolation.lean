import BuildScript.Proofs.Apply.Calls
import BuildScript.Proofs.Ownership

namespace BuildScript

namespace Run

variable {σ : Type} {w : Writer σ} {ov : List NodeId} {d : Document} {b : NodeId}
  {r r' : Run (σ × Log)}

open Document

/-- After the calls in `L`, which are the deletions of a block, its other children are as they
were. -/
structure Cleared (d : Document) (b : NodeId) (r : Run (σ × Log)) (L : Log)
    (r' : Run (σ × Log)) : Prop where
  log : r'.writer.2 = r.writer.2 ++ L
  briefs : Log.briefs L =
    ((d.inState b .toBeRemoved).filter (!d.isNeverWritten b ·)).map (⟨.delete, ·, b⟩)
  inState : ∀ state, state ≠ .toBeRemoved → r'.document.inState b state = d.inState b state
  placeable : r'.document.placeable b = d.placeable b
  pristine : ∀ id ∈ d.placeable b, Pristine d b r'.document id

/-- After the calls in `L`, which are the deletions and creations of a block, its children are ready
to be flushed, but for those whose creations were refused. -/
structure Prepared (d : Document) (b : NodeId) (r : Run (σ × Log)) (L : Log)
    (r' : Run (σ × Log)) : Prop where
  log : r'.writer.2 = r.writer.2 ++ L
  briefs : Log.briefs L =
    ((d.inState b .toBeRemoved).filter (!d.isNeverWritten b ·)).map (⟨.delete, ·, b⟩) ++
      (d.inState b .toBeAdded).map (⟨.create, ·, b⟩)
  refused : ∀ x ∈ Log.refusedCreations L, x ∈ d.inState b .toBeAdded
  placeable : r'.document.placeable b = (d.placeable b).filter (· ∉ Log.refusedCreations L)
  ready : ∀ id ∈ r'.document.placeable b, Ready d b r'.document id
  moved : r'.document.inState b .moved = d.inState b .moved

theorem Deletes.placeable_eq {L : Log} (h : Deletes b r (r.document.inState b .toBeRemoved) L r')
    (hw : Writable ov r.document b)
    (hc : Changed b (r.document.inState b .toBeRemoved) r.document r'.document) :
    r'.document.placeable b = r.document.placeable b := by
  have heq := hc.placeable_eq hw (p := fun _ ↦ true) fun x ↦ ?_
  · rw [heq, List.filter_true]
  · by_cases hx : x ∈ r.document.inState b .toBeRemoved
    · have hnot := (hw.owned.linked.endsIn hx).not_mem_placeable rfl
      have hnot' := (h.ends x hx).not_mem_placeable rfl
      simp [hnot, hnot']
    · simp [hc.mem_placeable hx]

theorem Creates.placeable_eq {L : Log} (h : Creates d b r (r.document.inState b .toBeAdded) L r')
    (hw : Writable ov r.document b)
    (hc : Changed b (r.document.inState b .toBeAdded) r.document r'.document) :
    r'.document.placeable b =
      (r.document.placeable b).filter (· ∉ Log.refusedCreations L) := by
  refine hc.placeable_eq hw fun x ↦ ?_
  by_cases hx : x ∈ r.document.inState b .toBeAdded
  · by_cases hr : x ∈ Log.refusedCreations L
    · simp [hr, h.refused x hx hr]
    · simp [hr, mem_placeable_of_mem_inState hx rfl, (h.ready x hx hr).placeable]
  · have hr : x ∉ Log.refusedCreations L := fun hr ↦ hx (h.mem_of_refused hr)
    simp [hr, hc.mem_placeable hx]

theorem cleared (w : Writer σ) (hd : Writable ov d b) (hw : Writable ov r.document b)
    (ha : Agrees d r.document b) : Writable ov (r.deletions w.audited b).document b ∧
      ∃ L, Cleared d b r L (r.deletions w.audited b) := by
  have ho := hd.owned.linked.older
  have hstore := ha.stores b .refl
  have hstart := inState_congr hstore
  obtain ⟨hw', hc, L, h⟩ := deletions_spec w hw
  generalize r.deletions w.audited b = r' at hw' hc h ⊢
  have hplace : r'.document.placeable b = d.placeable b := by
    rw [h.placeable_eq hw hc, Document.placeable, Document.placeable, hstore]
  refine ⟨hw', L, h.log, ?_, fun state hne ↦ ?_, hplace, fun id hid ↦ ?_⟩
  · simpa only [isNeverWritten, hstart, hstore] using h.briefs
  · exact (hc.inState_eq_of_ends hw (fun _ hid ↦ hid) h.ends hne hne).trans (hstart state)
  · refine (ha.pristine ho (hd.isOwnedBy_of_placeable hid)).changed ho hc (fun i hi ↦ ?_)
      fun hmem ↦ ?_
    · exact hd.isOwnedBy_of_inState (by simp) (hstart _ ▸ hi)
    · exact (h.ends id hmem).not_mem_placeable rfl (hplace ▸ hid)

theorem Cleared.prepared {L₁ : Log} (h₁ : Cleared d b r L₁ r') (hd : Writable ov d b)
    (hw : Writable ov r'.document b) : Writable ov (r'.creations w.audited b).document b ∧
      ∃ L, Prepared d b r L (r'.creations w.audited b) := by
  have ho := hd.owned.linked.older
  have hadded : r'.document.inState b .toBeAdded = d.inState b .toBeAdded :=
    h₁.inState _ (by simp)
  obtain ⟨hw', hc, L₂, h₂⟩ := creations_spec w ho hw fun id hid ↦
    have hbase := hadded ▸ hid
    ⟨hbase, h₁.pristine id (mem_placeable_of_mem_inState hbase rfl)⟩
  have hplace := h₂.placeable_eq hw hc
  have hmoved : (r'.creations w.audited b).document.inState b .moved =
      r'.document.inState b .moved :=
    hc.inState_eq_of_ends hw (fun _ hid ↦ hid) h₂.ends (by simp) (by simp)
  generalize r'.creations w.audited b = r₂ at hw' hc h₂ hplace hmoved ⊢
  rw [hadded] at hc h₂
  rw [h₁.placeable] at hplace
  have hnone : ∀ x, x ∉ Log.refusedCreations L₁ := by
    intro x hx
    obtain ⟨y, hy⟩ := Log.exists_brief_of_refused hx
    rw [h₁.briefs] at hy
    simp at hy
  have hrefused : Log.refusedCreations (L₁ ++ L₂) = Log.refusedCreations L₂ := by
    rw [Log.refusedCreations_append, List.eq_nil_iff_forall_not_mem.mpr hnone, List.nil_append]
  refine ⟨hw', L₁ ++ L₂, ?_, ?_, ?_, ?_, fun id hid ↦ ?_, hmoved.trans (h₁.inState _ (by simp))⟩
  · rw [h₂.log, h₁.log, List.append_assoc]
  · rw [Log.briefs_append, h₁.briefs, h₂.briefs]
  · intro x hx
    exact h₂.mem_of_refused (hrefused ▸ hx)
  · rw [hrefused, hplace]
  · obtain ⟨hmem, hr⟩ := List.mem_filter.mp (hplace ▸ hid)
    by_cases hx : id ∈ d.inState b .toBeAdded
    · exact h₂.ready id hx (by simpa using hr)
    · have hp := (h₁.pristine id hmem).changed ho hc
        (fun i hi ↦ hd.isOwnedBy_of_inState (by simp) hi) hx
      obtain ⟨n, hn, -⟩ := isOwnedBy_iff.mp hp.child
      exact ⟨hp.child, hp.agrees, hid, n, n, hn, hp.node.trans hn, rfl, by simp [hx]⟩

theorem Prepared.block_eq {L : Log} (h : Prepared d b r L r') :
    ∀ c ∈ Log.briefs L, c.block = b := by
  intro c hc
  rw [h.briefs, List.mem_append] at hc
  rcases hc with hc | hc
  · obtain ⟨x, -, rfl⟩ := List.mem_map.mp hc
    rfl
  · obtain ⟨x, -, rfl⟩ := List.mem_map.mp hc
    rfl

theorem Prepared.isSpared {L : Log} {c : Brief} (h : Prepared d b r L r') (hd : Writable ov d b)
    (hc : c.block = b ∨
      ∃ id, id ∉ Log.refusedCreations L ∧ d.isOwnedBy id b ∧ Below d id c.block) :
    d.isSpared (Log.refusedCreations L) c = true := by
  have hself : d.Within (Log.refusedCreations L) (Log.refusedCreations L) := fun f hf ↦
    ⟨f, hf, .refl⟩
  exact hself.isSpared hd (fun i hi ↦ hd.isOwnedBy_of_inState (by simp) (h.refused i hi)) hc

theorem Prepared.executes_flushes {fuel : Nat} {L L₃ : Log} (h : Prepared d b r L r')
    (hd : Writable ov d b)
    (h₃ : d.Executes ((r'.document.placeable b).flatMap (d.flushPlan (d.plan fuel) b)) L₃) :
    d.Executes (Log.briefs L ++ (d.placeable b).flatMap (d.flushPlan (d.plan fuel) b))
      (L ++ L₃) := by
  rw [h.placeable] at h₃
  have hown : ∀ i ∈ (d.placeable b).filter (· ∉ Log.refusedCreations L), d.isOwnedBy i b :=
    fun i hi ↦ hd.isOwnedBy_of_placeable (List.mem_filter.mp hi).1
  have hfirst : d.Executes (Log.briefs L) L :=
    .of_briefs_eq rfl fun c hc ↦ h.isSpared hd (.inl (h.block_eq c hc))
  have hboth := hfirst.append h₃
    (fun c hc ↦ (h₃.within hd hown).isSpared hd hown (.inl (h.block_eq c hc)))
    fun c hc ↦ by
      obtain ⟨i, hi, hc⟩ := List.mem_flatMap.mp hc
      have hnot : i ∉ Log.refusedCreations L := by simpa using (List.mem_filter.mp hi).2
      refine h.isSpared hd ((flushPlan_block hd (hown i hi) hc).imp ?_ fun hb ↦ ?_)
      · rintro rfl
        rfl
      · exact ⟨i, hnot, hown i hi, hb.1⟩
  -- what was planned for a child whose creation is refused lies inside it
  have hlost : ∀ i ∈ d.placeable b, decide (i ∉ Log.refusedCreations L) = false →
      ∀ c ∈ d.flushPlan (d.plan fuel) b i,
        d.isSpared (Log.refusedCreations (L ++ L₃)) c = false := by
    intro i hi hr c hc
    have hr : i ∈ Log.refusedCreations L := by simpa using hr
    have hchild := hd.child (hd.isOwnedBy_of_placeable hi)
    rcases mem_flushPlan hc with ⟨-, hnot⟩ | hc
    · exact absurd (h.refused i hr) hnot
    · refine Bool.eq_false_iff.mpr fun hs ↦ ?_
      rw [isSpared_iff (plan_writable hchild hc)] at hs
      refine hs i ?_ (plan_below hchild hc).1
      rw [Log.refusedCreations_append]
      exact List.mem_append_left _ hr
  rw [Executes, List.filter_append] at hboth ⊢
  rw [hboth, filter_flatMap_filter hlost]

/-- The four phases of a block together make its plan, less what the refused creations take with
them. -/
theorem Prepared.executes {fuel : Nat} {L L₃ L₄ : Log} (h : Prepared d b r L r')
    (hd : Writable ov d b)
    (h₃ : d.Executes ((r'.document.placeable b).flatMap (d.flushPlan (d.plan fuel) b)) L₃)
    (h₄ : Log.briefs L₄ = (d.inState b .moved).map (⟨.relocate, ·, b⟩)) :
    d.Executes (d.plan (fuel + 1) b) (L ++ L₃ ++ L₄) := by
  have hnone : Log.refusedCreations L₄ = [] := by
    refine List.eq_nil_iff_forall_not_mem.mpr fun x hx ↦ ?_
    obtain ⟨y, hy⟩ := Log.exists_brief_of_refused hx
    rw [h₄] at hy
    simp at hy
  have hspared : ∀ c, d.isSpared (Log.refusedCreations L₄) c = true := fun c ↦ by
    rw [hnone]
    rfl
  have hwithin : d.Within (d.placeable b) (Log.refusedCreations (L ++ L₃)) := by
    intro f hf
    rw [Log.refusedCreations_append, List.mem_append] at hf
    rcases hf with hf | hf
    · exact ⟨f, mem_placeable_of_mem_inState (h.refused f hf) rfl, .refl⟩
    · rw [h.placeable] at h₃
      obtain ⟨i, hi, hb⟩ := h₃.within hd
        (fun i hi ↦ hd.isOwnedBy_of_placeable (List.mem_filter.mp hi).1) f hf
      exact ⟨i, (List.mem_filter.mp hi).1, hb⟩
  have hall := (h.executes_flushes hd h₃).append (.of_briefs_eq h₄ fun c _ ↦ hspared c)
    (fun c _ ↦ hspared c) fun c hc ↦ by
      obtain ⟨x, -, rfl⟩ := List.mem_map.mp hc
      exact hwithin.isSpared hd (fun i hi ↦ hd.isOwnedBy_of_placeable hi) (.inl rfl)
  rwa [h.briefs] at hall

/-- Whatever is refused, a block gets the calls that were planned for it, less those that the
refused creations take with them. -/
theorem follows (ov : List NodeId) (d : Document) (w : Writer σ) (fuel : Nat) :
    Follows ov d w fuel := by
  induction fuel with
  | zero => exact fun b r _ _ _ ↦ ⟨[], by simp [block], rfl⟩
  | succ fuel ih =>
    intro b r hd hw ha
    obtain ⟨hw₁, L₁, h₁⟩ := cleared w hd hw ha
    obtain ⟨hw₂, L₂, h₂⟩ := h₁.prepared (w := w) hd hw₁
    obtain ⟨hw₃, L₃, h₃⟩ := flushes_spec ih hd hw₂ h₂.ready
    obtain ⟨L₄, hlog, hbriefs⟩ := relocations_spec w hw₃
    have hmoved := (inState_congr h₃.store .moved).trans h₂.moved
    rw [hmoved] at hbriefs
    refine ⟨L₂ ++ L₃ ++ L₄, ?_, h₂.executes hd h₃.executes hbriefs⟩
    rw [h₃.log, h₂.log, List.append_assoc, List.append_assoc, ← List.append_assoc L₂] at hlog
    rw [block_succ, phases]
    simp only [hlog]

end Run

namespace Document

variable {σ τ : Type} {ov : List NodeId} {d : Document}

def runPlan (d : Document) : List Brief :=
  if d.isModified root then d.plan d.nodes.size root else []

theorem executes_audit (ho : Owned False ov (fun _ ↦ False) d) (w : Writer σ) (s : σ) :
    d.Executes d.runPlan (d.audit w s) := by
  have hroot : Writable ov d root := ⟨ho, .refl⟩
  have hagrees : Agrees d d root := ⟨.refl d, fun _ _ _ ↦ rfl, fun _ _ ↦ rfl⟩
  have hlog : d.audit w s = (d.writeMain w.audited (s, [])).writer.2 := by
    rw [audit, apply_eq]
  rw [hlog, writeMain, runPlan]
  split
  · obtain ⟨L, hL, hex⟩ := Run.follows ov d w d.nodes.size root
      { document := d, writer := (s, []) } hroot hroot hagrees
    simp only [hL, List.nil_append]
    exact hex
  · rfl

theorem nodup_runPlan (ho : Owned False ov (fun _ ↦ False) d) : d.runPlan.Nodup := by
  have hroot : Writable ov d root := ⟨ho, .refl⟩
  unfold runPlan
  split
  · exact nodup_plan hroot
  · exact List.nodup_nil

theorem briefs_audit_accepting (ho : Owned False ov (fun _ ↦ False) d) {v : Writer τ}
    (hv : ∀ t call, v.refusal? t call = none) (t : τ) : Log.briefs (d.audit v t) = d.runPlan := by
  have hnone : Log.refusedCreations (d.audit v t) = [] := by
    refine Log.refusedCreations_eq_nil fun p hp ↦ ?_
    rw [audit_eq_recorded hv] at hp
    obtain ⟨call, -, rfl⟩ := List.mem_map.mp hp
    rfl
  rw [executes_audit ho v t, hnone]
  exact List.filter_true _

/-- A run under any writer makes the calls of a run in which none is refused, each once and in the
same order, but for those about blocks at or below a node whose creation was refused. The reports
list the calls by their answers. -/
theorem calls_despite_refusals (hd : Reached InMainTree d) (w : Writer σ) (s : σ) (v : Writer τ)
    (t : τ) (hv : ∀ t call, v.refusal? t call = none) :
    Log.briefs (d.audit w s) = (Log.briefs (d.audit v t)).filter
        (d.isSpared (Log.refusedCreations (d.audit w s))) ∧
      (Log.briefs (d.audit v t)).Nodup ∧
      (d.apply w s).report = .ofLog (d.audit w s) ∧
      (d.apply v t).report = .ofLog (d.audit v t) := by
  have ho : Owned False d.overlays (fun _ ↦ False) d := hd.owned fun _ _ ha ↦ ⟨ha, False.elim⟩
  rw [briefs_audit_accepting ho hv t]
  exact ⟨executes_audit ho w s, nodup_runPlan ho, report_apply d w s, report_apply d v t⟩

/-- The refused block `5` takes the creation of its literal with it, the refused value nothing. -/
theorem calls_despite_refused_block :
    Reached InMainTree stagedDocument ∧
    Log.briefs (stagedDocument.audit .noop ()) =
      [⟨.create, 5, root⟩, ⟨.flush, 2, 1⟩, ⟨.create, 6, 5⟩] ∧
    Log.briefs (stagedDocument.audit (.refusing [(.create, "signing"), (.flush, "minSdk")]) 0) =
      [⟨.create, 5, root⟩, ⟨.flush, 2, 1⟩] ∧
    (stagedDocument.apply (.refusing [(.create, "signing"), (.flush, "minSdk")]) 0).report =
      .ofLog (stagedDocument.audit (.refusing [(.create, "signing"), (.flush, "minSdk")]) 0) := by
  have hd : Reached InMainTree stagedDocument := reached_stagedDocument.mono fun _ _ h ↦ h.1
  obtain ⟨hcalls, -, hreport, -⟩ := calls_despite_refusals hd
    (.refusing [(.create, "signing"), (.flush, "minSdk")]) 0 .noop () fun _ _ ↦ rfl
  have hall : Log.briefs (stagedDocument.audit .noop ()) =
      [⟨.create, 5, root⟩, ⟨.flush, 2, 1⟩, ⟨.create, 6, 5⟩] := by decide
  have hgone : Log.refusedCreations (stagedDocument.audit
      (.refusing [(.create, "signing"), (.flush, "minSdk")]) 0) = [5] := by decide
  rw [hall, hgone] at hcalls
  exact ⟨hd, hall, hcalls.trans (by decide), hreport⟩

end Document

end BuildScript
