import BuildScript.Proofs.Linked.Apply
import BuildScript.Proofs.Linked.Merge
import BuildScript.Proofs.Linked.Reset

namespace BuildScript

namespace Document

variable {d : Document} {allowed : Document → Edit → Prop}

/-- The documents that operations can lead to, where `allowed` says which changes may be asked of
which document. A refused change counts as well. -/
inductive Reached (allowed : Document → Edit → Prop) : Document → Prop
  | new (id : DocumentId) (config : Config) : Reached allowed (Document.new id config)
  | edit {d : Document} (edit : Edit) : Reached allowed d → allowed d edit →
      Reached allowed (edit.run d).2
  | reset {d : Document} : Reached allowed d → Reached allowed d.reset
  | apply {d : Document} {σ : Type} (w : Writer σ) (s : σ) : Reached allowed d →
      Reached allowed (d.apply w s).document
  | merge {d : Document} (other : Document) : Reached allowed d → Reached allowed (d.merge other).2
  | takeDiagnostics {d : Document} : Reached allowed d → Reached allowed d.takeDiagnostics.2

def Reachable (d : Document) : Prop := Reached (fun _ _ ↦ True) d

theorem Reached.mono {allowed' : Document → Edit → Prop}
    (h : ∀ d edit, allowed d edit → allowed' d edit) (hd : Reached allowed d) :
    Reached allowed' d := by
  induction hd with
  | new id config => exact .new id config
  | edit edit _ ha ih => exact .edit edit ih (h _ _ ha)
  | reset _ ih => exact .reset ih
  | apply w s _ ih => exact .apply w s ih
  | merge other _ ih => exact .merge other ih
  | takeDiagnostics _ ih => exact .takeDiagnostics ih

theorem node?_new (id : DocumentId) (config : Config) (i : NodeId) :
    (Document.new id config).node? i =
      if i = root then some { name := .empty, kind := .block rootKind, parent := none }
      else none := by
  rw [Document.new, node?_push]
  rfl

theorem store?_new (id : DocumentId) (config : Config) (i : NodeId) :
    (Document.new id config).store? i = if i = root then some {} else none := by
  rw [Document.new, store?_push rfl]
  rfl

theorem node?_of_new {id : DocumentId} {config : Config} {x : NodeId} {n : Node}
    (h : (Document.new id config).node? x = some n) :
    x = root ∧ n = { name := .empty, kind := .block rootKind, parent := none } := by
  rw [node?_new] at h
  split at h
  · next hx => exact ⟨hx, (Option.some.inj h).symm⟩
  · simp at h

theorem store?_of_new {id : DocumentId} {config : Config} {b : NodeId} {s : Store}
    (h : (Document.new id config).store? b = some s) : s = {} := by
  rw [store?_new] at h
  split at h
  · exact (Option.some.inj h).symm
  · simp at h

theorem not_mem_new {id : DocumentId} {config : Config} {b : NodeId} {s : Store} {e : Entry}
    (h : (Document.new id config).store? b = some s) : e ∉ s.entries := by
  rw [store?_of_new h]
  exact List.not_mem_nil

theorem not_mem_nodes_new {id : DocumentId} {config : Config} {b x : NodeId} {s : Store}
    (h : (Document.new id config).store? b = some s) : x ∉ s.nodes := by
  rw [store?_of_new h]
  exact List.not_mem_nil

theorem linked_new (id : DocumentId) (config : Config) : Linked (Document.new id config) := by
  refine ⟨rfl, fun i ↦ ?_, fun x n hn ↦ ?_, fun b s hs ↦ ?_, ?_, ?_⟩
  · rw [store?_new, node?_new]
    split <;> rfl
  · rw [(node?_of_new hn).2]
    exact ⟨by simp, by simp, by simp, by simp⟩
  · rw [store?_of_new hs]
    exact storeFits_empty _ b
  · exact ⟨_, by rw [node?_new, if_pos rfl], rfl, rfl, rfl⟩
  · simp [Document.new, Document.push]

theorem Reached.linked (hd : Reached allowed d) : Linked d := by
  induction hd with
  | new id config => exact linked_new id config
  | edit edit _ _ ih => exact ih.edit edit
  | reset _ ih => exact ih.reset
  | apply w s _ ih => exact ih.apply w s
  | merge other _ ih => exact ih.merge other
  | takeDiagnostics _ ih => exact ih.of_tables rfl rfl ih.sources

def libraryDocument : Document :=
  ((Edit.addParsed root (.literal ⟨["version"]⟩ (.integer 1))).run (.new ⟨"library"⟩ {})).2

/-- The document of an application after a merge: the root owns the block `1` with the literal `2`
and borrows the literal `4` of the overlay `3`. -/
def applicationDocument : Document :=
  (((Edit.addParsed root
    { name := ⟨["android"]⟩, kind := .block "android"
      children := [.literal ⟨["minSdk"]⟩ (.integer 21)] }).run (.new ⟨"app"⟩ {})).2.merge
    libraryDocument).2

def stagedDocument : Document :=
  ((Edit.add root
    { name := ⟨["signing"]⟩, kind := .block "signing"
      children := [.literal ⟨["keyAlias"]⟩ (.string "release")] }).run
    ((Edit.setValue 2 (.integer 24)).run applicationDocument).2).2

end Document

end BuildScript
