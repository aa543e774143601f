import BuildScript.Proofs.Clearing.Run

namespace BuildScript

namespace Document

variable {C : NodeId → NodeId → Prop} {K : NodeId → Prop} {d d' : Document} {x y : NodeId}

theorem listsOwned_new {D : NodeId → Prop} (id : DocumentId) (config : Config) :
    ListsOwned D (Document.new id config).overlays (fun _ ↦ False) (Document.new id config) := by
  refine ⟨linked_new id config, fun b s hs _ x hx ↦ ?_, fun x n p s hn hp _ ↦ ?_,
    fun x n hn _ ↦ ?_, by simp [Document.new, Document.push],
    by simp [Document.new, Document.push]⟩
  · exact absurd hx (not_mem_nodes_new hs)
  · simp [(node?_of_new hn).2] at hp
  · exact .inl (node?_of_new hn).1

theorem fullyTraced_new (id : DocumentId) (config : Config) :
    FullyTraced (Document.new id config) := by
  have hd : Reachable (Document.new id config) := .new id config
  have hclear : ∀ x, (Document.new id config).Clear x := by
    refine fun x ↦ ⟨isStagedAt_eq_false.mpr
      ⟨fun n hn ↦ ?_, fun s e hs he ↦ absurd he (not_mem_new hs)⟩, fun s hs ↦ ?_⟩
    · rw [(node?_of_new hn).2]
    · rw [store?_of_new hs]
  exact ⟨⟨listsOwned_new id config, hd.overlaysApart, hd.lent, fun _ _ _ _ _ _ ↦ trivial,
    fun b s e hs he ↦ absurd he (not_mem_new hs), fun b s e _ hs he ↦ absurd he (not_mem_new hs),
    fun x _ _ ↦ ⟨hclear x, fun s e hs he ↦ absurd he (not_mem_new hs)⟩,
    fun _ _ _ x _ ↦ hclear x⟩, fun _ _ b s e _ hs he ↦ absurd he (not_mem_new hs)⟩

theorem OnlyUnstages.takeDiagnostics (d : Document) : OnlyUnstages C d d.takeDiagnostics.2 where
  toInherits := ⟨fun _ n' hn' ↦ ⟨n', hn', rfl⟩, rfl, rfl⟩
  calm x n n' hn hn' := by
    have hn'' : d.node? x = some n' := hn'
    rw [hn] at hn''
    cases hn''
    exact ⟨rfl, rfl, fun h ↦ h, fun h ↦ h⟩
  entry _ s' e' hs he := ⟨s', e', hs, he, .refl _ e'⟩
  unmoved _ hb := hb

theorem FullyTraced.takeDiagnostics (h : FullyTraced d) : FullyTraced d.takeDiagnostics.2 := by
  have hh : ListsOwned d.OutsideMain d.overlays (fun _ ↦ False) d.takeDiagnostics.2 :=
    h.listsOwned.of_tables (h.linked.of_tables rfl rfl h.linked.sources) rfl rfl h.listsOwned.source
  have hc : OnlyUnstages (fun _ _ ↦ True) d d.takeDiagnostics.2 := .takeDiagnostics d
  refine ⟨h.lose hc hh (fun _ _ _ _ _ _ ↦ trivial) (fun _ _ hn ↦ hn) fun _ s _ hs he ↦ ⟨s, hs, he⟩,
    fun o ho b s e hb hs he hw ↦ ?_⟩
  exact h.renewed o ho b s e (hb.onlyUnstages hc hh (h.overlaysApart o ho).2.1) hs he hw

/-- In every document the marks show what is staged. -/
theorem Reached.fullyTraced {allowed : Document → Edit → Prop} (hd : Reached allowed d) :
    FullyTraced d := by
  induction hd with
  | new id config => exact fullyTraced_new id config
  | @edit d edit hd ha ih =>
    have hlast : Reached allowed (edit.run d).2 := .edit edit hd ha
    exact ih.altered (alters hd.linked edit) (overlays_run hd.linked edit) (ih.listsOwned.edit edit)
      hlast.overlaysApart hlast.lent
  | reset hd ih => exact ih.reset hd.reset.overlaysApart hd.reset.lent
  | apply w s _ ih => exact ih.apply w s
  | merge other hd ih =>
    exact ih.merged (merged hd.linked other) (ih.listsOwned.merge other)
      (hd.merge other).overlaysApart
      (hd.merge other).lent
  | takeDiagnostics _ ih => exact ih.takeDiagnostics

/-- No store around a node lists it, or a block of the main tree hides it. -/
def isCutOff (d : Document) (x : NodeId) : Bool :=
  (d.node? x).any fun n ↦ n.parent.any fun p ↦
    (d.store? p).isNone || (d.lineage p).contains root && (d.inState p .hidden).contains x

def isConcealed (d : Document) (x : NodeId) : Bool := (d.lineage x).any d.isCutOff

/-- Is anything staged where an apply does not look? -/
def hasConcealedChanges (d : Document) : Bool :=
  d.nodes.ids.any fun x ↦ d.isConcealed x && d.isStagedAt x

theorem isCutOff_iff : d.isCutOff x ↔ ∃ n p, d.node? x = some n ∧ n.parent = some p ∧
    (d.store? p = none ∨ root ∈ d.lineage p ∧ x ∈ d.inState p .hidden) := by
  simp only [isCutOff, Option.any_eq_true, Bool.or_eq_true, Bool.and_eq_true,
    List.contains_iff_mem, Option.isNone_iff_eq_none]
  exact ⟨fun ⟨n, hn, p, hp, hor⟩ ↦ ⟨n, p, hn, hp, hor⟩, fun ⟨n, p, hn, hp, hor⟩ ↦
    ⟨n, hn, p, hp, hor⟩⟩

theorem hasStagedChanges_iff (h : Linked d) :
    d.hasStagedChanges ↔ d.isModified root ∨ ∃ x, d.isLive x ∧ d.isStagedAt x := by
  simp only [hasStagedChanges, Bool.or_eq_true, List.any_eq_true, Table.mem_entries, isStagedAt,
    Option.any_eq_true, or_assoc]
  refine or_congr_right ⟨?_, ?_⟩
  · rintro (⟨s, ⟨x, hs⟩, hst⟩ | ⟨n, ⟨x, hn⟩, hp⟩)
    · obtain ⟨n, hn, -⟩ := h.isContainer_of_store? hs
      exact ⟨x, isLive_iff.mpr ⟨n, hn⟩, .inr ⟨s, hs, hst⟩⟩
    · exact ⟨x, isLive_iff.mpr ⟨n, hn⟩, .inl ⟨n, hn, hp⟩⟩
  · rintro ⟨x, -, ⟨n, hn, hp⟩ | ⟨s, hs, hst⟩⟩
    · exact .inr ⟨n, ⟨x, hn⟩, hp⟩
    · exact .inl ⟨s, ⟨x, hs⟩, hst⟩

theorem hasConcealedChanges_iff : d.hasConcealedChanges ↔
    ∃ x, d.isLive x ∧ d.isConcealed x ∧ d.isStagedAt x := by
  simp [hasConcealedChanges, isLive, Document.node?]

theorem isConcealed_iff (h : Linked d) : d.isConcealed x ↔
    d.isLive x ∧ ∃ y, d.isLive y ∧ Below d y x ∧ d.isCutOff y := by
  simp only [isConcealed, List.any_eq_true, mem_lineage h.older]
  exact ⟨fun ⟨y, ⟨hx, hy, hb⟩, hc⟩ ↦ ⟨hx, y, hy, hb, hc⟩, fun ⟨hx, y, hy, hb, hc⟩ ↦
    ⟨y, ⟨hx, hy, hb⟩, hc⟩⟩

namespace Traced

/-- From the root and the overlays the marks have gone from all that is not concealed. -/
theorem unmarked_or_nested (h : Traced K d) (hroot : ¬ d.isModified root) {x : NodeId}
    (hx : d.isLive x) (hc : ¬ d.isConcealed x) :
    (Below d root x ∧ ¬ d.isModified x) ∨ ∃ o ∈ d.overlays, Nested d o x := by
  induction x using Nat.strongRecOn with
  | _ x ih =>
  obtain ⟨n, hn⟩ := isLive_iff.mp hx
  have hseen : ∀ y, d.isLive y → Below d y x → ¬ d.isCutOff y := fun y hy hb hcut ↦
    hc ((isConcealed_iff h.linked).mpr ⟨hx, y, hy, hb, hcut⟩)
  cases hp : n.parent with
  | none =>
    rcases h.listsOwned.top x n hn hp with rfl | ho
    · exact .inl ⟨.refl, hroot⟩
    · exact .inr ⟨x, ho, .refl⟩
  | some p =>
    cases hs : d.store? p with
    | none => exact absurd (isCutOff_iff.mpr ⟨n, p, hn, hp, .inl hs⟩) (hseen x hx .refl)
    | some s =>
      obtain ⟨m, hm, -⟩ := h.linked.isContainer_of_store? hs
      have hlive : d.isLive p := isLive_iff.mpr ⟨m, hm⟩
      have hcp : ¬ d.isConcealed p := by
        intro hcp
        obtain ⟨-, y, hy, hb, hcut⟩ := (isConcealed_iff h.linked).mp hcp
        exact hseen y hy (.step hb hn hp) hcut
      rcases ih p (h.linked.older x n p hn hp) hlive hcp with ⟨hb, hmp⟩ | ⟨o, ho, hnest⟩
      · -- the parent is settled, and it shows the node
        have hmem := (h.listsOwned.listed x n p s hn hp hs).resolve_left not_false
        obtain ⟨e, he, rfl⟩ := List.mem_map.mp hmem
        refine .inl ⟨.step hb hn hp, (h.settled p hb hmp).entry s e hs he
          (isOwnedBy_iff.mpr ⟨n, hn, hp⟩) fun hst ↦ hseen e.node hx .refl ?_⟩
        obtain ⟨m₀, hm₀, -⟩ := h.linked.root
        exact isCutOff_iff.mpr ⟨n, p, hn, hp, .inr ⟨(mem_lineage h.linked.older).mpr
          ⟨hlive, isLive_iff.mpr ⟨m₀, hm₀⟩, hb⟩, mem_inState.mpr ⟨s, hs, e, he, hst, rfl⟩⟩⟩
      · exact .inr ⟨o, ho, .step hnest hn hp hs⟩

theorem isConcealed_of_isStagedAt (h : Traced K d) (hroot : ¬ d.isModified root)
    (hover : ∀ o ∈ d.overlays, ¬ d.isModified o) (hx : d.isLive x) (hst : d.isStagedAt x) :
    d.isConcealed x := by
  by_contra hc
  have hunstaged : d.isStagedAt x = false := by
    rcases h.unmarked_or_nested hroot hx hc with ⟨hb, hm⟩ | ⟨o, ho, hnest⟩
    · exact (h.settled x hb hm).clear.unstaged
    · exact (h.quiet o ho (hover o ho) x hnest).unstaged
  simp [hunstaged] at hst

end Traced

/-- A run conceals nothing: who has lost the store around him, had none before. -/
theorem hasConcealedChanges_onlyUnstages (h : Linked d) (h' : Linked d') (hc : OnlyUnstages C d d')
    (hkin : ∀ x n p, d'.node? x = some n → n.parent = some p → d'.store? p = none →
      d.store? p = none) (hd' : d'.hasConcealedChanges) : d.hasConcealedChanges := by
  obtain ⟨x, hx, hcx, hst⟩ := hasConcealedChanges_iff.mp hd'
  obtain ⟨-, y, hy, hb, hcut⟩ := (isConcealed_iff h').mp hcx
  have hlive : ∀ {z}, d'.isLive z → d.isLive z := by
    intro z hz
    obtain ⟨n', hn'⟩ := isLive_iff.mp hz
    obtain ⟨n, hn, -⟩ := hc.node z n' hn'
    exact isLive_iff.mpr ⟨n, hn⟩
  have hstaged : d.isStagedAt x := by
    by_contra hne
    simp [isStagedAt_onlyUnstages (Bool.eq_false_iff.mpr hne) hc] at hst
  refine hasConcealedChanges_iff.mpr ⟨x, hlive hx, (isConcealed_iff h).mpr
    ⟨hlive hx, y, hlive hy, hc.below hb, ?_⟩, hstaged⟩
  obtain ⟨n', p, hn', hp, hor⟩ := isCutOff_iff.mp hcut
  obtain ⟨n, hn, hpar⟩ := hc.node y n' hn'
  refine isCutOff_iff.mpr ⟨n, p, hn, hpar ▸ hp, hor.imp (hkin y n' p hn' hp) ?_⟩
  rintro ⟨hmain, hhidden⟩
  obtain ⟨hlp, hlr, hbp⟩ := (mem_lineage h'.older).mp hmain
  obtain ⟨s', hs', e', he', hst', rfl⟩ := mem_inState.mp hhidden
  obtain ⟨s, e, hs, he, hunstages⟩ := hc.entry p s' e' hs' he'
  refine ⟨(mem_lineage h.older).mpr ⟨hlive hlp, hlive hlr, hc.below hbp⟩,
    mem_inState.mpr ⟨s, hs, e, he, ?_, hunstages.node.symm⟩⟩
  exact (hunstages.eq_of_ne (by simp [hst'])).symm.trans hst'

/-- After an apply in which nothing is refused the root is not marked, and what is still staged is
concealed: hidden, inside a hidden block, or below a node without a store. If nothing staged was
concealed before, nothing is staged any more. -/
theorem staged_after_apply_concealed {σ : Type} (hd : Reachable d) (w : Writer σ) (st : σ)
    (hw : ∀ t call, w.refusal? t call = none) :
    (d.apply w st).document.isModified root = false ∧
      (d.apply w st).document.hasStagedChanges = (d.apply w st).document.hasConcealedChanges ∧
      (d.hasConcealedChanges = false → (d.apply w st).document.hasStagedChanges = false) := by
  have hfully := hd.fullyTraced
  -- the nodes without a store around them are those of the document before
  have htraced := hfully.kin_known
  have hc := OnlyUnstages.apply hd.linked w st
  obtain ⟨ht, hroot, hover⟩ := htraced.apply w st
  have hroot := hroot (clean_apply hw d st)
  generalize (d.apply w st).document = d' at *
  have heq : d'.hasStagedChanges = d'.hasConcealedChanges := by
    rw [Bool.eq_iff_iff, hasStagedChanges_iff ht.linked, hasConcealedChanges_iff]
    constructor
    · rintro (hm | ⟨x, hx, hst⟩)
      · exact absurd hm hroot
      · exact ⟨x, hx, ht.isConcealed_of_isStagedAt hroot hover hx hst, hst⟩
    · rintro ⟨x, hx, -, hst⟩
      exact .inr ⟨x, hx, hst⟩
  refine ⟨Bool.eq_false_iff.mpr hroot, heq, fun hnone ↦ ?_⟩
  rw [heq, Bool.eq_false_iff]
  intro hd'
  have hbefore :=
    hasConcealedChanges_onlyUnstages hd.linked ht.linked hc (fun x n' p hn' hp hs ↦ ?_) hd'
  · simp [hnone] at hbefore
  · obtain ⟨n, hn, hpar⟩ := hc.node x n' hn'
    exact ht.kin x n' p hn' hp hs n p hn (hpar ▸ hp)

/-- A value, a block and its literal are staged, none of them concealed. -/
theorem unstaged_after_apply_stagedDocument :
    Reachable stagedDocument ∧ stagedDocument.hasStagedChanges = true ∧
      stagedDocument.hasConcealedChanges = false ∧
      (stagedDocument.apply .noop ()).document.hasStagedChanges = false := by
  have hd : Reachable stagedDocument :=
    .edit _ (.edit _ (.merge _ (.edit _ (.new _ _) trivial)) trivial) trivial
  have hnone : stagedDocument.hasConcealedChanges = false := by decide
  obtain ⟨-, -, hclear⟩ := staged_after_apply_concealed hd .noop () fun _ _ ↦ rfl
  exact ⟨hd, by decide, hnone, hclear hnone⟩

def hiddenDocument : Document :=
  ((Edit.hideNamed root "version").run
    ((Edit.setValue 1 (.integer 2)).run libraryDocument).2).2

/-- The value stays staged, though nothing is refused. -/
theorem staged_after_apply_hiddenDocument :
    Reachable hiddenDocument ∧ (∀ t call, Writer.noop.refusal? t call = none) ∧
      (hiddenDocument.apply .noop ()).report.isClean = true ∧
      (hiddenDocument.apply .noop ()).document.hasStagedChanges = true :=
  ⟨.edit _ (.edit _ (.edit _ (.new _ _) trivial) trivial) trivial, fun _ _ ↦ rfl, by decide,
    by decide⟩

end Document

end BuildScript
