import BuildScript.Document.Apply
import BuildScript.Document.Edit
import BuildScript.Document.Merge
import BuildScript.Document.Reset

namespace BuildScript

inductive Level
  | info
  | warn
  | error
  | debug
  deriving DecidableEq, Repr

inductive Component
  | apply
  | reset
  | merge
  | edit
  | placement
  deriving DecidableEq, Repr

structure Event where
  level : Level
  component : Component
  op : String
  event : String
  fields : List (String × String)
  deriving DecidableEq, Repr

namespace Journal

def fieldNames : List String :=
  ["component", "op", "event", "duration_ms", "document_id", "block", "node", "node_name",
    "deleted", "created", "flushed", "relocated", "failed", "applied", "synthesized", "err.kind",
    "err.code"]

def eventNames : List String :=
  ["start", "end", "end_error", "placement_conflict", "writer_failure", "include_skipped"]

def started (component : Component) (op : String) (fields : List (String × String)) : Event :=
  ⟨.info, component, op, "start", fields⟩

def ended (component : Component) (op : String) (fields : List (String × String)) : Event :=
  ⟨.info, component, op, "end", fields⟩

def refused (component : Component) (op : String) (e : ModelError) : Event :=
  let kind := e.toFault.kind
  ⟨.error, component, op, "end_error", [("err.kind", kind.label), ("err.code", kind.code)]⟩

def documentField (d : Document) : String × String := ("document_id", d.id.text)

def ofApply (d : Document) (report : Report) : List Event :=
  let failure (f : Failure) : Event :=
    ⟨.warn, .apply, "apply", "writer_failure",
      [documentField d, ("node", f.node.label), ("node_name", f.name), ("step", f.step.title),
        ("err.code", FaultKind.writerFailure.code), ("message", f.message)]⟩
  started .apply "apply" [documentField d] :: report.failures.map failure ++
    [ended .apply "apply"
      [("deleted", toString report.deleted.length), ("created", toString report.created.length),
        ("flushed", toString report.flushed.length),
        ("relocated", toString report.relocated.length),
        ("failed", toString report.failures.length)]]

def ofReset (before : Document) : List Event :=
  [started .reset "reset" [documentField before],
    ended .reset "reset" [("discarded", toString before.discardCount)]]

def ofMerge (d other : Document) (report : MergeReport) : List Event :=
  let skipped (name : String) : Event :=
    ⟨.debug, .merge, "merge_from", "include_skipped", [("node_name", name)]⟩
  started .merge "merge_from" [documentField d, ("source_document", other.id.text)] ::
    report.skipped.map skipped ++
    [ended .merge "merge_from"
      [("applied", toString report.applied), ("synthesized", toString report.synthesized)]]

def conflicts (before after : Document) : List Event :=
  (after.diagnostics.drop before.diagnostics.length).map fun c ↦
    ⟨.warn, .placement, "add", "placement_conflict",
      [documentField after, ("block", c.block.label), ("node", c.node.label),
        ("node_name", after.nameOf c.node)]⟩

/-- Replacements and moves are reported from start to end; of the other changes only the placement
conflicts are. -/
def ofEdit (edit : Edit) (before : Document) (answer : Except ModelError Outcome)
    (after : Document) : List Event :=
  match edit with
  | .replace block old _ =>
    let start := started .edit "replace" [("block", block.label), ("node", old.label)]
    match answer with
    | .error e => [start, refused .edit "replace" e]
    | .ok (.replacement id _) => [start, ended .edit "replace" [("node", id.label)]]
    | .ok _ => [start]
  | .moveTo block node index =>
    let start := started .edit "move_to"
      [("block", block.label), ("node", node.label), ("index", toString index)]
    match answer with
    | .error e => [start, refused .edit "move_to" e]
    | .ok _ => [start, ended .edit "move_to" []]
  | _ => conflicts before after

end Journal

end BuildScript
