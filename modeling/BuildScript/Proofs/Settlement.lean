import BuildScript.Proofs.Apply.Audit
import BuildScript.Proofs.Apply.Traversal
import BuildScript.Proofs.LentInOverlays

namespace BuildScript

theorem Table.ext_get? {α : Type} {t t' : Table α} (hs : t.size = t'.size)
    (hg : ∀ i, t.get? i = t'.get? i) : t = t' := by
  obtain ⟨a⟩ := t
  obtain ⟨a'⟩ := t'
  refine congrArg Table.mk (Array.ext hs fun i hi hi' ↦ ?_)
  have h := hg i
  simpa [Table.get?, hi, hi'] using h

namespace Document

variable {d d' d₁ d₂ d₃ : Document} {b c id x : NodeId} {s : Store} {e : Entry} {σ : Type}

/-- The blocks that an apply may enter, on its way from the root or from an overlay. -/
def Walked (d : Document) (b : NodeId) : Prop :=
  Nested d root b ∨ ∃ o ∈ d.overlays, Nested d o b

/-- What a walked block lists is walked: its own nodes lie inside it, and what it has borrowed lies
inside an overlay. -/
theorem Walked.listed (hb : Walked d b) (h : Linked d) (hm : LentInOverlays d)
    (hs : d.store? b = some s) (hx : x ∈ s.nodes) (hlive : d.isLive x) : Walked d x := by
  obtain ⟨n, hn⟩ := isLive_iff.mp hlive
  rcases ((h.store b s hs).links x hx).2 n hn with hp | hh
  · exact hb.imp (·.step hn hp hs) fun ⟨o, ho, hnest⟩ ↦ ⟨o, ho, hnest.step hn hp hs⟩
  · exact .inr (hm x n hn (List.ne_nil_of_mem hh))

theorem Traversed.walked (hb : Traversed d b) (h : Linked d) (hm : LentInOverlays d) :
    Walked d b := by
  induction hb with
  | root => exact .inl .refl
  | child _ hid hlive ih =>
    obtain ⟨s, hs, e, he, -, rfl⟩ := mem_placeable.mp hid
    exact ih.listed h hm hs (Store.mem_nodes_of_mem he) hlive

theorem Visited.walked (hb : Visited d b) (h : Linked d) (hm : LentInOverlays d) : Walked d b :=
  hb.elim (fun hb ↦ hb.walked h hm) .inr

def Loses (b : NodeId) (d d' : Document) : Prop :=
  ∀ s' e, d'.store? b = some s' → e ∈ s'.entries → ∃ s, d.store? b = some s ∧ e ∈ s.entries

namespace Loses

theorem refl (b : NodeId) (d : Document) : Loses b d d := fun s' _ hs' he ↦ ⟨s', hs', he⟩

theorem trans (h : Loses b d₁ d₂) (h' : Loses b d₂ d₃) : Loses b d₁ d₃ := fun s' e hs' he ↦ by
  obtain ⟨s, hs, he⟩ := h' s' e hs' he
  exact h s e hs he

theorem modifyNode (d : Document) (f : Node → Node) : Loses b d (d.modifyNode id f) :=
  fun s' _ hs' he ↦ ⟨s', hs', he⟩

theorem modifyStore (hne : c ≠ b) (d : Document) (f : Store → Store) :
    Loses b d (d.modifyStore c f) := fun s' e hs' he ↦ by
  rw [store?_modifyStore, if_neg hne] at hs'
  exact ⟨s', hs', he⟩

theorem purge (d : Document) (c id : NodeId) : Loses b d (d.purge c id) := fun _ _ hs' he ↦
  mem_of_mem_purge hs' he

theorem release (h : Linked d) (id : NodeId) : Loses b d (d.release id) := by
  intro s' e hs' he
  obtain ⟨s, hs, -, hsub⟩ := store?_foldl_evict_sublist h.distinct hs'
  exact ⟨s, hs, hsub.subset he⟩

/-- A step of an apply changes the entries of the blocks that it goes through, and no others. -/
theorem step (hb : ¬ Visited d₁ b) (hstep : ApplyStep d₁ d₂ d₃) : Loses b d₂ d₃ := by
  have hne : ∀ {c}, Visited d₁ c → c ≠ b := by
    rintro c hc rfl
    exact hb hc
  cases hstep with
  | node => exact .modifyNode d₂ _
  | entry hc | settle hc => exact .modifyStore (hne hc) d₂ _
  | purge => exact .purge d₂ _ _
  | release h => exact .release h _

theorem underway (hb : ¬ Visited d b) (h : Underway d d') : Loses b d d' := by
  obtain ⟨-, -, hsteps⟩ := h
  induction hsteps with
  | refl => exact .refl b d
  | tail _ hstep ih => exact ih.trans (.step hb hstep)

theorem apply (h : Linked d) (hm : LentInOverlays d) (hb : ¬ Walked d b) (w : Writer σ) (st : σ) :
    Loses b d (d.apply w st).document :=
  underway (fun hv ↦ hb (hv.walked h hm)) (.apply h w st)

end Loses

def AddedStaged (d : Document) : Prop :=
  ∀ b s e, d.store? b = some s → e ∈ s.entries → e.Was .toBeAdded → e.staged = true

/-- Blocks that an apply enters are left without anything to be added, and the entries of all others
are left as they were. -/
theorem AddedStaged.apply (h : AddedStaged d) (hr : FullyTraced d) (hm : LentInOverlays d)
    (w : Writer σ) (st : σ) : AddedStaged (d.apply w st).document := by
  intro b s e hs he hadded
  have hl := hr.linked.apply w st
  have hr' := hr.apply w st
  obtain ⟨n, hn, -⟩ := hl.isContainer_of_store? hs
  have hnested : ∀ {a}, Nested d a b → Nested (d.apply w st).document a b :=
    (Upholds.apply hr w st).nested hl (isLive_iff.mpr ⟨n, hn⟩)
  by_cases hb : Walked d b
  · rcases hb with hnest | ⟨o, ho, hnest⟩
    · exact hr'.new b s e (hnested hnest).toBelow hs he hadded
    · refine hr'.renewed o ?_ b s e (hnested hnest) hs he hadded
      rwa [(OnlyUnstages.apply hr.linked w st).overlays]
  · obtain ⟨s₀, hs₀, he₀⟩ := Loses.apply hr.linked hm hb w st s e hs he
    exact h b s₀ e hs₀ he₀ hadded

theorem Reached.addedStaged {allowed : Document → Edit → Prop} (hd : Reached allowed d) :
    AddedStaged d := by
  induction hd with
  | new id config => exact fun b s e hs he ↦ absurd he (not_mem_new hs)
  | edit edit hd _ ih =>
    exact fun b s e hs he hadded ↦ new_altered (alters hd.linked edit) hs he hadded (ih b)
  | reset hd ih =>
    intro b s' e' hs' he' hadded
    obtain ⟨s, e, hs, he, hst, rfl⟩ := mem_reset hd.linked hs' he'
    simp [ih b s e hs he (hadded.of_revert (by simp))] at hst
  | apply w s hd ih => exact ih.apply hd.fullyTraced hd.lentInOverlays w s
  | merge other hd ih =>
    intro b s e hs he hadded
    rcases (merged hd.linked other).kept_or_settled hs he with ⟨s₀, hs₀, he₀⟩ | ⟨-, hnot, -⟩
    · exact ih b s₀ e hs₀ he₀ hadded
    · exact absurd hadded hnot
  | takeDiagnostics _ ih => exact ih

theorem modifyStore_eq_self {f : Store → Store} (hf : ∀ s, d.store? b = some s → f s = s) :
    d.modifyStore b f = d := by
  have hstores : d.stores.modify b f = d.stores := by
    refine Table.ext_get? (Table.size_modify ..) fun i ↦ ?_
    rw [Table.get?_modify]
    split
    · next hi =>
      subst hi
      cases hs : d.stores.get? b with
      | none => rfl
      | some s => exact congrArg some (hf s hs)
    · rfl
  exact congrArg (fun stores ↦ { d with stores }) hstores

theorem IsSettled.reset_eq_self (h : d.IsSettled) : d.reset = d := by
  have hstores : d.resetStores = d :=
    List.foldlRecOn (motive := (· = d)) _ _ rfl fun d' hd b _ ↦ by
      rw [hd]
      exact modifyStore_eq_self fun s hs ↦ (h.store b s hs).reset_eq_self
  have hnone : d.discards d.stores.ids = [] := by
    refine List.eq_nil_iff_forall_not_mem.mpr fun ⟨b, x⟩ hmem ↦ ?_
    obtain ⟨s, hs, hx⟩ := mem_discards.mp hmem
    obtain ⟨e, he, hst, -⟩ := Store.mem_stagedNodes.mp hx
    simp [((h.store b s hs).entries e he).1] at hst
  have hnodes : d.nodes.map Node.settledAt = d.nodes := by
    refine Table.ext_get? (Table.size_map ..) fun i ↦ ?_
    rw [Table.get?_map]
    cases hn : d.nodes.get? i with
    | none => rfl
    | some n => exact congrArg some (h.node i n hn)
  rw [reset_eq, hstores, hnone]
  exact congrArg (fun nodes ↦ { d with nodes }) hnodes

theorem isStaged_reset (hd : Reachable d) (hs : d.reset.store? b = some s) (he : e ∈ s.entries) :
    e.isStaged = false ∧ e.restore = none := by
  obtain ⟨s₀, e₀, hs₀, he₀, hst, rfl⟩ := mem_reset hd.linked hs he
  refine ⟨Entry.isStaged_revert hst (fun hadded ↦ ?_) ((hd.linked.store b s₀ hs₀).restored e₀ he₀),
    rfl⟩
  simp [hd.addedStaged b s₀ e₀ hs₀ he₀ hadded] at hst

theorem not_isModified_reset (h : Linked d) : ¬ d.reset.isModified x := fun hm ↦ by
  obtain ⟨n', hn', hmod⟩ := isModified_iff.mp hm
  obtain ⟨n, -, rfl⟩ := node?_reset h hn'
  simp [Node.settledAt, Node.scanEdges] at hmod

/-- After a reset nothing is staged, whatever has been done before: the entries are existing,
applied or hidden, no node has a pending value or a mark, an apply asks nothing of its writer, and
a second reset changes nothing. -/
theorem reset_settles (hd : Reachable d) :
    (∀ b s e, d.reset.store? b = some s → e ∈ s.entries →
      (e.state = .existing ∨ e.state = .applied ∨ e.state = .hidden) ∧ e.staged = false) ∧
    (∀ x n, d.reset.node? x = some n → n.pending = none ∧ n.modified = false) ∧
    d.reset.hasStagedChanges = false ∧
    (∀ {σ : Type} (w : Writer σ) (st : σ), d.reset.audit w st = []) ∧
    d.reset.reset = d.reset := by
  have hsettled := isSettled_reset hd.linked
  have hentry : ∀ b s e, d.reset.store? b = some s → e ∈ s.entries → e.isStaged = false :=
    fun _ _ _ hs he ↦ (isStaged_reset hd hs he).1
  have hnode : ∀ x n, d.reset.node? x = some n → n.pending = none ∧ n.modified = false := by
    intro x n' hn'
    obtain ⟨n, -, rfl⟩ := node?_reset hd.linked hn'
    exact ⟨rfl, rfl⟩
  have hroot : d.reset.isModified root = false :=
    Bool.eq_false_iff.mpr (not_isModified_reset hd.linked)
  refine ⟨fun b s e hs he ↦ ?_, hnode, ?_, fun w st ↦ ?_, hsettled.reset_eq_self⟩
  · have hst := hentry b s e hs he
    simp only [Entry.isStaged, Bool.or_eq_false_iff] at hst
    refine ⟨?_, hst.1⟩
    cases hstate : e.state <;> simp_all [EntryState.isPending]
  · refine Bool.eq_false_iff.mpr fun hstaged ↦ ?_
    rcases (hasStagedChanges_iff hsettled.linked).mp hstaged with hm | ⟨x, -, hst⟩
    · simp [hroot] at hm
    · have hclear : d.reset.isStagedAt x = false := isStagedAt_eq_false.mpr
        ⟨fun n hn ↦ (hnode x n hn).1, fun s e hs he ↦ hentry x s e hs he⟩
      simp [hclear] at hst
  · rw [audit, apply_eq, writeMain, hroot]
    rfl

/-- Two writes are refused, then a literal that the root has borrowed is replaced in its overlay and
the block with the value that waits is hidden. -/
def strandedDocument : Document :=
  ((Edit.hideNamed root "android").run
    ((Edit.replace 3 4 (.literal ⟨["version"]⟩ (.integer 2))).run
      (stagedDocument.apply
        (.refusing [(.flush, "minSdk"), (.create, "keyAlias")]) 0).document).2).2

theorem reset_settles_strandedDocument :
    Reachable strandedDocument ∧ strandedDocument.hasStagedChanges = true ∧
      strandedDocument.reset.hasStagedChanges = false ∧
      strandedDocument.reset.audit .noop () = [] ∧
      strandedDocument.reset.reset = strandedDocument.reset := by
  have hd : Reachable strandedDocument :=
    .edit _ (.edit _ (.apply _ _ (.edit _ (.edit _ (.merge _ (.edit _ (.new _ _) trivial)) trivial)
      trivial)) trivial) trivial
  obtain ⟨-, -, hclear, hcalls, hagain⟩ := reset_settles hd
  exact ⟨hd, by decide +kernel, hclear, hcalls .noop (), hagain⟩

end Document

end BuildScript
