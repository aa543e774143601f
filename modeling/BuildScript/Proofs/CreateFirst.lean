import BuildScript.Proofs.Grounds

namespace BuildScript

theorem Log.accepted_append (step : Step) (log log' : Log) :
    accepted step (log ++ log') = accepted step log ++ accepted step log' :=
  List.filterMap_append ..

/-- An entry of a node that has not been written: to be added, hidden, or removed while it was to
be added. -/
def Entry.IsWaiting (e : Entry) : Prop :=
  e.state = .toBeAdded ∨ e.state = .hidden ∨ e.state = .toBeRemoved ∧ e.restore = some .toBeAdded

namespace Entry.IsWaiting

variable {e e' : Entry} {C : Prop}

theorem withdraw (h : e.IsWaiting) (hh : e.state ≠ .hidden) : e.withdraw.IsWaiting := by
  unfold Entry.withdraw
  split
  · exact h
  · next hr =>
    have hst : e.state = .toBeAdded :=
      h.resolve_right fun h ↦ h.elim hh fun ⟨hs, _⟩ ↦ hr hs
    exact .inr (.inr ⟨rfl, congrArg some hst⟩)

theorem relocated (h : e.IsWaiting) (hp : e.isPlaceable) : (Store.relocated e).IsWaiting := by
  have hst : e.state = .toBeAdded := by
    rcases h with h | h | ⟨h, -⟩
    · exact h
    · simp [Entry.isPlaceable, h, EntryState.isPlaceable] at hp
    · simp [Entry.isPlaceable, h, EntryState.isPlaceable] at hp
  exact .inl (by simp [Store.relocated, hst])

theorem revert (h : e.IsWaiting) : e.revert.IsWaiting := by
  rcases h with h | h | ⟨h, hr⟩
  · exact .inl (by simp [Entry.revert, h])
  · exact .inr (.inl (by simp [Entry.revert, h]))
  · exact .inl (by simp [Entry.revert, h, hr])

theorem onlyUnstages (h : e.IsWaiting) (hc : e.OnlyUnstages C e') (hC : ¬ C) : e'.IsWaiting := by
  have hs : e'.state = e.state := hc.state.resolve_right fun ⟨_, hs⟩ ↦ by
    rcases hs with hs | ⟨-, hs⟩
    · simp [Entry.IsWaiting, hs] at h
    · exact hC hs
  rcases h with h | h | ⟨h, hr⟩
  · exact .inl (hs.trans h)
  · exact .inr (.inl (hs.trans h))
  · exact .inr (.inr ⟨hs.trans h, (hc.restore.resolve_right (· (hs.trans h))).trans hr⟩)

theorem not_isDue (h : e.IsWaiting) {step : Step} (hstep : step ≠ .create) : ¬ e.IsDue step := by
  intro hdue
  cases step with
  | create => exact hstep rfl
  | delete =>
    obtain ⟨hst, hr⟩ := hdue
    simp [Entry.IsWaiting, hst, hr] at h
  | flush => rcases hdue with hst | hst <;> simp [Entry.IsWaiting, hst] at h
  | relocate =>
    have hst : e.state = .moved := hdue
    simp [Entry.IsWaiting, hst] at h

end Entry.IsWaiting

namespace Document

variable {d d' : Document} {b x : NodeId} {n : Node} {s : Store} {e : Entry} {log : Log}
  {inserted : NodeId → Prop} {allowed : (NodeId → Prop) → Log → Document → Edit → Prop}

/-- What has been done to a document: which nodes have been inserted to be written, and the calls
that its applies have made. Which changes are allowed may depend on both. -/
inductive History (allowed : (NodeId → Prop) → Log → Document → Edit → Prop) :
    Document → (NodeId → Prop) → Log → Prop
  | new (id : DocumentId) (config : Config) :
      History allowed (Document.new id config) (fun _ ↦ False) []
  | edit {d : Document} {inserted : NodeId → Prop} {log : Log} (edit : Edit) :
      History allowed d inserted log → allowed inserted log d edit →
      History allowed (edit.run d).2 (fun x ↦ inserted x ∨
        edit.inserts = true ∧ d.nextId ≤ x ∧ x < (edit.run d).2.nextId) log
  | reset {d : Document} {inserted : NodeId → Prop} {log : Log} :
      History allowed d inserted log → History allowed d.reset inserted log
  | apply {d : Document} {inserted : NodeId → Prop} {log : Log} {σ : Type} (w : Writer σ) (s : σ) :
      History allowed d inserted log →
      History allowed (d.apply w s).document inserted (log ++ d.audit w s)
  | merge {d : Document} {inserted : NodeId → Prop} {log : Log} (other : Document) :
      History allowed d inserted log → History allowed (d.merge other).2 inserted log
  | takeDiagnostics {d : Document} {inserted : NodeId → Prop} {log : Log} :
      History allowed d inserted log → History allowed d.takeDiagnostics.2 inserted log

theorem History.reached {allowed' : Document → Edit → Prop} (h : History allowed d inserted log)
    (ha : ∀ inserted log d edit, allowed inserted log d edit → allowed' d edit) :
    Reached allowed' d := by
  induction h with
  | new id config => exact .new id config
  | edit edit _ hedit ih => exact .edit edit ih (ha _ _ _ edit hedit)
  | reset _ ih => exact .reset ih
  | apply w s _ ih => exact .apply w s ih
  | merge other _ ih => exact .merge other ih
  | takeDiagnostics _ ih => exact .takeDiagnostics ih

/-- No removal or replacement of a hidden entry whose node was inserted and has not been created. -/
def SparesHidden (inserted created : NodeId → Prop) (d : Document) (edit : Edit) : Prop :=
  ∀ t ∈ edit.withdraws?, t.2 ∈ d.inState t.1 .hidden → inserted t.2 → created t.2

structure Waits (inserted created : NodeId → Prop) (d : Document) : Prop where
  numbered : ∀ x, inserted x → x < d.nextId
  waiting : ∀ b s e n, Below d root b → d.store? b = some s → e ∈ s.entries →
    d.node? e.node = some n → n.parent = some b → inserted e.node → ¬ created e.node → e.IsWaiting

namespace Waits

variable {created created' : NodeId → Prop}

theorem altered {edit : Edit} (h : Waits inserted created d) (hl : Linked d)
    (ha : Alters d edit d') (hs : SparesHidden inserted created d edit) :
    Waits (fun x ↦ inserted x ∨ edit.inserts = true ∧ d.nextId ≤ x ∧ x < d'.nextId) created d' := by
  refine ⟨fun x hx ↦ hx.elim (fun hx ↦ Nat.lt_of_lt_of_le (h.numbered x hx) ha.next) (·.2.2),
    fun b s' e' n' hb hs' he' hn' hp' hins hcre ↦ ?_⟩
  have hold : ∀ s e, d.store? b = some s → e ∈ s.entries → e.node = e'.node →
      d.isOwnedBy e.node b ∧ inserted e.node ∧ e.IsWaiting := by
    intro s e hs he hnode
    have hlt := ((hl.store b s hs).links e.node (Store.mem_nodes_of_mem he)).1
    obtain ⟨n, hn, hp, -⟩ := ha.node e'.node n' (hnode ▸ hlt) hn'
    have hb' : Below d root b := below_of_older hl.older (hl.lt_of_store? hs)
      (fun y m hy hm ↦ by
        obtain ⟨m₀, hm₀, hpm, -⟩ := ha.node y m hy hm
        exact ⟨m₀, hm₀, hpm⟩) hb
    have hins' : inserted e.node := by
      rw [hnode]
      exact hins.resolve_right fun ⟨_, hle, _⟩ ↦ Nat.not_lt.mpr hle (hnode ▸ hlt)
    exact ⟨isOwnedBy_iff.mpr ⟨n, hnode ▸ hn, hp ▸ hp'⟩, hins',
      h.waiting b s e n hb' hs he (hnode ▸ hn) (hp ▸ hp') hins' (hnode ▸ hcre)⟩
  cases ha.entry b s' e' hs' he' with
  | kept hs he => exact (hold _ _ hs he rfl).2.2
  | @withdrawn s e hs₀ he _ hpick =>
    obtain ⟨hown, hins', hwait⟩ := hold _ _ hs₀ he (Entry.withdraw_node _).symm
    refine hwait.withdraw fun hst ↦ ?_
    rcases hpick with hplace | htarget
    · simp [Entry.isPlaceable, hst, EntryState.isPlaceable] at hplace
    · rw [Entry.withdraw_node] at hcre
      exact hcre (hs (b, e.node) (htarget hown) (mem_inState.mpr ⟨s, hs₀, e, he, hst, rfl⟩) hins')
  | hidden => exact .inr (.inl rfl)
  | moved hs he hplace => exact (hold _ _ hs he (Store.relocated_node _).symm).2.2.relocated hplace
  | @parsed x ex hle _ hnot =>
    rcases hins with hins | ⟨hinserts, -⟩
    · exact absurd (h.numbered x hins) (Nat.not_lt.mpr hle)
    · simp [hnot] at hinserts
  | staged => exact .inl rfl
  | @replacing block old spec n s e _ _ _ hmem hs he hnode hna hown =>
    have hpar : n'.parent = _ := parent_of_isOwnedBy hown hn'
    rw [hp'] at hpar
    cases hpar
    have happ := hna rfl
    cases hst : e.state <;>
      simp_all [Store.replacement, Store.replacementState, Entry.fresh, Entry.IsWaiting]

theorem reset (h : Waits inserted created d) (hl : Linked d) : Waits inserted created d.reset := by
  refine ⟨fun x hx ↦ (nextId_reset hl).symm ▸ h.numbered x hx,
    fun b s' e' n' hb hs' he' hn' hp' hins hcre ↦ ?_⟩
  obtain ⟨s, e, hs, he, -, rfl⟩ := mem_reset hl hs' he'
  obtain ⟨n, hn, rfl⟩ := node?_reset hl hn'
  have hb' : Below d root b := hb.mono fun y m hm ↦ by
    obtain ⟨m₀, hm₀, rfl⟩ := node?_reset hl hm
    exact ⟨m₀, hm₀, rfl⟩
  exact (h.waiting b s e n hb' hs he hn hp' hins hcre).revert

theorem merged (h : Waits inserted created d) (hl : Linked d) (hm : Merged d d') :
    Waits inserted created d' := by
  refine ⟨fun x hx ↦ Nat.lt_of_lt_of_le (h.numbered x hx) hm.next,
    fun b s' e' n' hb hs' he' hn' hp' hins hcre ↦ ?_⟩
  have hlt := h.numbered e'.node hins
  rcases hm.entry b s' e' hs' he' with ⟨s, hs, he⟩ | ⟨x, hle, hnew⟩
  · obtain ⟨n, hn, hp, -⟩ := hm.node e'.node n' hlt hn'
    have hb' : Below d root b := below_of_older hl.older (hl.lt_of_store? hs)
      (fun y m hy hm' ↦ by
        obtain ⟨m₀, hm₀, hpm, -⟩ := hm.node y m hy hm'
        exact ⟨m₀, hm₀, hpm⟩) hb
    exact h.waiting b s e' n hb' hs he hn (hp ▸ hp') hins hcre
  · have hx : e'.node = x := by
      rcases hnew with ⟨rfl, -⟩ | ⟨rfl, -⟩ <;> rfl
    exact absurd hlt (Nat.not_lt.mpr (hx ▸ hle))

theorem onlyUnstages {C : NodeId → NodeId → Prop} (h : Waits inserted created d)
    (hc : OnlyUnstages C d d')
    (hsub : ∀ x, created x → created' x) (hC : ∀ b x, Below d root b → C b x → created' x) :
    Waits inserted created' d' := by
  refine ⟨fun x hx ↦ hc.nextId ▸ h.numbered x hx, fun b s' e' n' hb hs' he' hn' hp' hins hcre ↦ ?_⟩
  obtain ⟨s, e, hs, he, hunstages⟩ := hc.entry b s' e' hs' he'
  obtain ⟨n, hn, hp⟩ := hc.node e'.node n' hn'
  have hb' := hc.below hb
  rw [hunstages.node] at hn hins hcre
  exact (h.waiting b s e n hb' hs he hn (hp ▸ hp') hins fun hx ↦ hcre (hsub _ hx)).onlyUnstages
    hunstages
    fun hx ↦ hcre (hC b e.node hb' hx)

theorem created_of_grounded {before : Log} {call : Call} (h : Waits inserted created d)
    (hg : Grounded d before call) (hins : inserted call.target.id) (hstep : call.step ≠ .create) :
    created call.target.id ∨ call.target.id ∈ Log.accepted .create before := by
  obtain ⟨hb, d₁, s, e, n, hc, hs, he, hid, hn, hp, hdue⟩ := hg
  by_contra hnot
  obtain ⟨hcre, hlog⟩ := not_or.mp hnot
  obtain ⟨s₀, e₀, hs₀, he₀, hunstages⟩ := hc.entry _ s e hs he
  obtain ⟨n₀, hn₀, hp₀⟩ := hc.node e.node n hn
  have hid₀ : e₀.node = call.target.id := hunstages.node.symm.trans hid
  have hwait := h.waiting _ s₀ e₀ n₀ hb hs₀ he₀ (hunstages.node ▸ hn₀) (hp₀ ▸ hp) (hid₀ ▸ hins)
    (hid₀ ▸ hcre)
  rw [hid₀] at hunstages
  exact (hwait.onlyUnstages hunstages hlog).not_isDue hstep hdue

end Waits

/-- In a log, every other call about an inserted node comes after an accepted creation of it. -/
def CreatesFirst (inserted : NodeId → Prop) (log : Log) : Prop :=
  ∀ before p after, log = before ++ p :: after → inserted p.1.target.id → p.1.step ≠ .create →
    p.1.target.id ∈ Log.accepted .create before

theorem CreatesFirst.append {log' : Log} (h : CreatesFirst inserted log)
    (h' : ∀ before p after, log' = before ++ p :: after → inserted p.1.target.id →
      p.1.step ≠ .create → p.1.target.id ∈ Log.accepted .create (log ++ before)) :
    CreatesFirst inserted (log ++ log') :=
  Log.Each.concat
    (P := fun before call ↦ inserted call.target.id → call.step ≠ .create →
      call.target.id ∈ Log.accepted .create before) h h'

/-- What a history keeps: inserted nodes wait for their creation, and the calls about them come
after it. -/
structure CreateFirstInvariant (inserted : NodeId → Prop) (log : Log) (d : Document) : Prop where
  waits : Waits inserted (· ∈ Log.accepted .create log) d
  first : CreatesFirst inserted log
  numbered : ∀ p ∈ log, p.1.target.id < d.nextId

namespace CreateFirstInvariant

theorem altered {edit : Edit} (h : CreateFirstInvariant inserted log d) (hl : Linked d)
    (ha : Alters d edit d') (hs : SparesHidden inserted (· ∈ Log.accepted .create log) d edit) :
    CreateFirstInvariant (fun x ↦ inserted x ∨ edit.inserts = true ∧ d.nextId ≤ x ∧ x < d'.nextId)
      log d' where
  waits := h.waits.altered hl ha hs
  first before p after hlog hins hstep := by
    have hmem : p ∈ log := by
      rw [hlog]
      exact List.mem_append_right _ List.mem_cons_self
    refine h.first before p after hlog (hins.resolve_right fun ⟨_, hle, _⟩ ↦ ?_) hstep
    exact Nat.not_lt.mpr hle (h.numbered p hmem)
  numbered p hp := Nat.lt_of_lt_of_le (h.numbered p hp) ha.next

theorem apply {σ : Type} (h : CreateFirstInvariant inserted log d) (hl : Linked d) (hb : Borrows d)
    (hc : OverlaysApart d) (w : Writer σ) (st : σ) :
    CreateFirstInvariant inserted (log ++ d.audit w st) (d.apply w st).document := by
  have hg := allGrounded_audit hl hb w st
  have hunstages := OnlyUnstages.apply hl w st
  refine ⟨h.waits.onlyUnstages hunstages (fun x hx ↦ ?_) fun b x hbelow hx ↦ ?_,
    h.first.append fun before p after hlog hins hstep ↦ ?_, fun p hp ↦ ?_⟩
  · rw [Log.accepted_append]
    exact List.mem_append_left _ hx
  · rcases hx with hx | ⟨o, ho, hob⟩
    · rw [report_apply] at hx
      rw [Log.accepted_append]
      exact List.mem_append_right _ hx
    · exact absurd hob (hc.not_below hl ho hbelow)
  · rw [Log.accepted_append, List.mem_append]
    exact h.waits.created_of_grounded (hg before p after hlog) hins hstep
  · rw [hunstages.nextId]
    rcases List.mem_append.mp hp with hp | hp
    · exact h.numbered p hp
    · obtain ⟨before, after, hlog⟩ := List.append_of_mem hp
      obtain ⟨n, hn⟩ := isLive_iff.mp (hg before p after hlog).below.1
      exact lt_nextId hn

end CreateFirstInvariant

def Careful (inserted : NodeId → Prop) (log : Log) (d : Document) (edit : Edit) : Prop :=
  ReplacesOnce d edit ∧ SparesHidden inserted (· ∈ Log.accepted .create log) d edit

theorem History.createFirstInvariant (h : History Careful d inserted log) :
    CreateFirstInvariant inserted log d := by
  induction h with
  | new id config =>
    exact ⟨⟨fun _ hx ↦ hx.elim, fun _ _ _ _ _ _ _ _ _ hx ↦ hx.elim⟩, by simp [CreatesFirst],
      by simp⟩
  | edit edit h ha ih =>
    have hl := (h.reached fun _ _ _ _ ha ↦ ha.1).linked
    exact ih.altered hl (alters hl edit) ha.2
  | reset h ih =>
    have hl := (h.reached fun _ _ _ _ ha ↦ ha.1).linked
    exact ⟨ih.waits.reset hl, ih.first, fun p hp ↦ (nextId_reset hl).symm ▸ ih.numbered p hp⟩
  | apply w s h ih =>
    have hd := h.reached fun _ _ _ _ ha ↦ ha.1
    exact ih.apply hd.linked (hd.borrows fun _ _ ha ↦ ha) hd.overlaysApart w s
  | merge other h ih =>
    have hl := (h.reached fun _ _ _ _ ha ↦ ha.1).linked
    have hm := Document.merged hl other
    exact ⟨ih.waits.merged hl hm, ih.first,
      fun p hp ↦ Nat.lt_of_lt_of_le (ih.numbered p hp) hm.next⟩
  | @takeDiagnostics d _ _ h ih =>
    refine ⟨⟨ih.waits.numbered, fun b s e n hb ↦ ?_⟩, ih.first, ih.numbered⟩
    have hb' : Below d root b := by
      refine hb.mono fun _ m hm ↦ ?_
      exact ⟨m, hm, rfl⟩
    exact ih.waits.waiting b s e n hb'

/-- Create comes first: whatever has been done and refused, as long as no hidden node was removed
between its insertion and its creation and nothing replaced twice in blocks that borrow it, a node
that was inserted has been created before any other call about it. -/
theorem created_before_other_calls (h : History Careful d inserted log) {before after : Log}
    {p : Call × Option String} (hlog : log = before ++ p :: after)
    (hins : inserted p.1.target.id) (hstep : p.1.step ≠ .create) :
    p.1.target.id ∈ Log.accepted .create before :=
  h.createFirstInvariant.first before p after hlog hins hstep

def insertedDocument : Document :=
  ((Edit.add root (.literal ⟨["x"]⟩ (.integer 1))).run (.new ⟨"app"⟩ {})).2

def revisedDocument : Document :=
  ((Edit.setValue 1 (.integer 2)).run (insertedDocument.apply .noop ()).document).2

theorem created_before_other_calls_flush :
    ∃ inserted, History Careful (revisedDocument.apply .noop ()).document inserted
        (insertedDocument.audit .noop () ++ revisedDocument.audit .noop ()) ∧
      inserted 1 ∧ (revisedDocument.audit .noop ()).briefs = [⟨.flush, 1, root⟩] ∧
      1 ∈ Log.accepted .create (insertedDocument.audit .noop ()) := by
  have hflush : (revisedDocument.audit .noop ()).briefs = [⟨.flush, 1, root⟩] := by decide
  obtain ⟨p, rest, hlog, hp, -⟩ := List.map_eq_cons_iff.mp hflush
  have hid : p.1.target.id = 1 := congrArg Brief.node hp
  have hstep : p.1.step = .flush := congrArg Brief.step hp
  have hnone : ∀ inserted created (d : Document) (edit : Edit), edit.withdraws? = none →
      SparesHidden inserted created d edit := fun _ _ d edit he t ht ↦ by simp [he] at ht
  have hhist : History Careful (revisedDocument.apply .noop ()).document _ _ :=
    .apply .noop () (.edit (.setValue 1 (.integer 2)) (.apply .noop () (.edit (.add root _)
      (.new ⟨"app"⟩ {}) ⟨trivial, hnone _ _ _ _ rfl⟩)) ⟨trivial, hnone _ _ _ _ rfl⟩)
  have hsplit : [] ++ insertedDocument.audit .noop () ++ revisedDocument.audit .noop () =
      insertedDocument.audit .noop () ++ p :: rest := by rw [hlog]; rfl
  have hins := created_before_other_calls hhist hsplit
  rw [hid] at hins
  exact ⟨_, hhist, .inl (.inr (by decide)), hflush, hins (.inl (.inr (by decide)))
    (by simp [hstep])⟩

def withdrawnDocument : Document :=
  ((Edit.remove root 1).run ((Edit.hideNamed root "x").run insertedDocument).2).2

/-- A literal that was hidden before it was removed is deleted, though it was never created. -/
theorem deleted_without_creation :
    ∃ inserted log, History (fun _ _ _ _ ↦ True) (withdrawnDocument.apply .noop ()).document
        inserted log ∧
      ∃ p ∈ log, inserted p.1.target.id ∧ p.1.step = .delete ∧ Log.accepted .create log = [] := by
  have hdelete : (withdrawnDocument.audit .noop ()).briefs = [⟨.delete, 1, root⟩] := by decide
  obtain ⟨p, rest, hlog, hp, -⟩ := List.map_eq_cons_iff.mp hdelete
  have hid : p.1.target.id = 1 := congrArg Brief.node hp
  refine ⟨_, withdrawnDocument.audit .noop (), .apply .noop () (.edit (.remove root 1)
    (.edit (.hideNamed root "x") (.edit (.add root _) (.new ⟨"app"⟩ {}) trivial) trivial) trivial),
    p, ?_, ?_, congrArg Brief.step hp, by decide⟩
  · rw [hlog]
    exact List.mem_cons_self
  · rw [hid]
    exact .inl (.inl (.inr (by decide)))

end Document

end BuildScript
