import BuildScript.Proofs.References.Shadowing

namespace BuildScript.Document

variable {d d' : Document} {a b n : NodeId} {e e' : Entry} {fuel : Nat} {name : String}

def entriesNamed (d : Document) (b : NodeId) (name : String) : List Entry :=
  (d.entries b).filter fun e ↦ (d.node? e.node).any (·.isCalled name)

/-- The same nodes, listed by the same blocks in another order. Entries for nodes of one name keep
their order. -/
structure Reordered (d d' : Document) : Prop where
  nodes : d'.nodes = d.nodes
  container : ∀ b, (d'.store? b).isSome = (d.store? b).isSome
  perm : ∀ b, (d'.entries b).Perm (d.entries b)
  order : ∀ b name, d'.entriesNamed b name = d.entriesNamed b name

theorem hits_eq (d : Document) (b : NodeId) (name : String) :
    d.hits b name = (d.entriesNamed b name).filter (·.isVisible) := by
  rw [hits, visible_map_fst, entriesNamed, List.filter_filter]

namespace Reordered

theorem node? (h : Reordered d d') (x : NodeId) : d'.node? x = d.node? x :=
  congrArg (·.get? x) h.nodes

theorem trans {d'' : Document} (h : Reordered d d') (h' : Reordered d' d'') : Reordered d d'' :=
  ⟨h'.nodes.trans h.nodes, fun b ↦ (h'.container b).trans (h.container b),
    fun b ↦ (h'.perm b).trans (h.perm b), fun b name ↦ (h'.order b name).trans (h.order b name)⟩

theorem swap {s s' : Store} {l l' : List Entry} (hnodes : d'.nodes = d.nodes)
    (hstores : d'.stores = d.stores.modify b fun _ ↦ s') (hs : d.store? b = some s)
    (hl : s.entries = l ++ e :: e' :: l') (hl' : s'.entries = l ++ e' :: e :: l')
    (hne : d.nameOf e.node ≠ d.nameOf e'.node) : Reordered d d' := by
  have hstore : ∀ a, d'.store? a = if b = a then (d.store? a).map fun _ ↦ s' else d.store? a :=
    fun a ↦ (congrArg (·.get? a) hstores).trans (d.stores.get?_modify b a _)
  have hentries : ∀ a, d'.entries a = if b = a then s'.entries else d.entries a := fun a ↦ by
    by_cases hba : b = a
    · rw [entries, hstore, if_pos hba, if_pos hba, ← hba, hs]
      rfl
    · rw [entries, hstore, if_neg hba, if_neg hba]
      rfl
  have hnode : ∀ x, d'.node? x = d.node? x := fun x ↦ congrArg (·.get? x) hnodes
  have hold : d.entries b = s.entries := by rw [entries, hs]
  refine ⟨hnodes, fun a ↦ ?_, fun a ↦ ?_, fun a name ↦ ?_⟩
  · rw [hstore]
    split <;> simp
  · rw [hentries]
    split
    · next hba =>
      rw [← hba, hold, hl, hl']
      exact (List.Perm.swap e e' l').append_left l
    · exact .refl _
  · rw [entriesNamed, entriesNamed, hentries]
    simp only [hnode]
    split
    · next hba =>
      rw [← hba, hold, hl, hl']
      -- no name is that of both, so one of the two is filtered out
      have hname : ∀ x, (d.node? x).any (·.isCalled name) → d.nameOf x = name := fun x hx ↦ by
        obtain ⟨m, hm, hcalled⟩ := Option.any_eq_true _ _ |>.mp hx
        rw [nameOf, hm]
        exact beq_iff_eq.mp hcalled
      by_cases he : (d.node? e.node).any (·.isCalled name)
      · have he' : ¬ (d.node? e'.node).any (·.isCalled name) := fun he' ↦
          hne ((hname _ he).trans (hname _ he').symm)
        simp [he, he']
      · simp [List.filter_cons, he]
    · rfl

theorem hits_eq (h : Reordered d d') (b : NodeId) (name : String) :
    d'.hits b name = d.hits b name := by
  rw [Document.hits_eq, Document.hits_eq, h.order]

theorem elementNamed?_eq (h : Reordered d d') (b : NodeId) (name : String) :
    d'.elementNamed? b name = d.elementNamed? b name := by
  rw [Document.elementNamed?_eq, Document.elementNamed?_eq, h.hits_eq]

theorem lookupPast_eq (h : Reordered d d') (b : NodeId) (name : String) (n : NodeId) :
    d'.lookupPast b name n = d.lookupPast b name n := by
  rw [Document.lookupPast_eq, Document.lookupPast_eq, h.hits_eq]

theorem lineage_eq (h : Reordered d d') (x : NodeId) : d'.lineage x = d.lineage x := by
  have hfuel : ∀ fuel x, d'.lineageWithin fuel x = d.lineageWithin fuel x := by
    intro fuel
    induction fuel with
    | zero => exact fun _ ↦ rfl
    | succ fuel ih =>
      intro x
      rw [lineageWithin, lineageWithin, h.node?]
      simp only [ih]
  rw [lineage, lineage, h.nodes, hfuel]

theorem attempt_eq (h : Reordered d d')
    (ih : ∀ b path, d'.resolveIn n fuel b path = d.resolveIn n fuel b path) (b : NodeId) :
    d'.attempt n fuel b = d.attempt n fuel b := by
  have hpast : d'.leadsPast n fuel = d.leadsPast n fuel := by
    funext x path
    rw [leadsPast, leadsPast, h.container, ih]
  funext cut
  rw [attempt, attempt, h.elementNamed?_eq, h.lookupPast_eq, hpast]

theorem resolveIn_eq (h : Reordered d d') (n : NodeId) (fuel : Nat) (b : NodeId)
    (path : List String) : d'.resolveIn n fuel b path = d.resolveIn n fuel b path := by
  induction fuel generalizing b path with
  | zero => rfl
  | succ fuel ih => rw [resolveIn_succ, resolveIn_succ, h.attempt_eq ih]

end Reordered

/-- In what order blocks list nodes of different names makes no difference to a reference, neither
in the blocks around it nor in those that its path leads through. -/
theorem resolve?_eq_of_reordered (h : Reordered d d') :
    (∀ dependency, d'.resolve? dependency = d.resolve? dependency) ∧
      ∀ origin fuel block path,
        d'.resolveIn origin fuel block path = d.resolveIn origin fuel block path := by
  refine ⟨fun dependency ↦ ?_, h.resolveIn_eq⟩
  rw [resolve?, resolve?, h.lineage_eq]
  exact findSome?_congr fun block _ ↦ h.resolveIn_eq _ _ block _

def consumer : Spec := .literal ⟨["version"]⟩ (.reference "ext.kotlin")

def provider : Spec :=
  { name := ⟨["ext"]⟩, kind := .block "ext", children := [.literal ⟨["kotlin"]⟩ (.integer 2)] }

def forwardDocument : Document :=
  let d := ((Edit.addParsed root consumer).run (.new ⟨"app"⟩ {})).2
  let d := ((Edit.addParsed root provider).run d).2
  ((Edit.addParsed 2 (.literal ⟨["java"]⟩ (.integer 21))).run d).2

def backwardDocument : Document :=
  let d := ((Edit.addParsed root consumer).run (.new ⟨"app"⟩ {})).2
  let d := ((Edit.addParsedAtFront root provider).run d).2
  ((Edit.addParsedAtFront 2 (.literal ⟨["java"]⟩ (.integer 21))).run d).2

/-- On the way from the one to the other the two declarations of the root have changed places. -/
def turnedDocument : Document := forwardDocument.modifyStore root fun _ ↦
  ⟨[.fresh 2 .existing false, .fresh 1 .existing false], none⟩

theorem resolve?_backwardDocument :
    Reordered forwardDocument backwardDocument ∧
      backwardDocument.resolve? ⟨1, "ext.kotlin", root⟩ =
        forwardDocument.resolve? ⟨1, "ext.kotlin", root⟩ ∧
      forwardDocument.resolve? ⟨1, "ext.kotlin", root⟩ = some 3 := by
  have hroot : Reordered forwardDocument turnedDocument := by
    have hs : forwardDocument.store? root =
        some ⟨[] ++ .fresh 1 .existing false :: .fresh 2 .existing false :: [], none⟩ := by
      decide +kernel
    exact .swap rfl rfl hs rfl rfl (by decide +kernel)
  have hblock : Reordered turnedDocument backwardDocument := by
    have hs : turnedDocument.store? 2 =
        some ⟨[] ++ .fresh 3 .existing false :: .fresh 4 .existing false :: [], none⟩ := by
      decide +kernel
    have hnodes : backwardDocument.nodes = turnedDocument.nodes :=
      congrArg Table.mk (by decide +kernel)
    have hstores : backwardDocument.stores = turnedDocument.stores.modify 2 fun _ ↦
        ⟨[.fresh 4 .existing false, .fresh 3 .existing false], none⟩ :=
      congrArg Table.mk (by decide +kernel)
    exact .swap hnodes hstores hs rfl rfl (by decide +kernel)
  have hboth := hroot.trans hblock
  exact ⟨hboth, (resolve?_eq_of_reordered hboth).1 _, by decide +kernel⟩

end BuildScript.Document
