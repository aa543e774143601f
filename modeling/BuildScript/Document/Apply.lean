import BuildScript.Document.Query
import BuildScript.Writer

namespace BuildScript

/-- The document and the writer in the middle of an apply. `clean` is lost when something stays to
be tried again. -/
structure Run (σ : Type) where
  document : Document
  writer : σ
  report : Report := {}
  clean : Bool := true

variable {σ : Type}

namespace Document

def target (d : Document) (block id : NodeId) (node : Node) : Target :=
  ⟨id, node, block, d.anchor? block id⟩

def inState (d : Document) (block : NodeId) (state : EntryState) : List NodeId :=
  match d.store? block with
  | some s => s.inState state
  | none => []

def placeable (d : Document) (block : NodeId) : List NodeId :=
  match d.store? block with
  | some s => s.placeable
  | none => []

def purge (d : Document) (block node : NodeId) : Document := d.modifyStore block (·.purge node)

def modifyEntry (d : Document) (block node : NodeId) (f : Entry → Entry) : Document :=
  d.modifyStore block (·.modifyEntry node f)

/-- A staged entry that was removed again has never been written. -/
def isNeverWritten (d : Document) (block node : NodeId) : Bool :=
  ((d.store? block).bind (·.find? node)).any (·.restore == some .toBeAdded)

end Document

namespace Store

def settle (s : Store) : Store :=
  settleBaseline { s with entries := s.entries.map fun e ↦
    if e.state = .toBeRemoved then e else { e with staged := false, restore := none } }

/-- Nothing is staged any more. -/
def settleAll (s : Store) : Store :=
  settleBaseline { s with entries := s.entries.map fun e ↦
    { e with
      state := if e.state = .toBeAdded ∨ e.state = .moved then .existing else e.state
      staged := false
      restore := none } }

end Store

namespace Run

def fail (w : Writer σ) (r : Run σ) (call : Call) (message : String) : Run σ :=
  { r with
    writer := w.next r.writer call
    report := { r.report with
      failures := r.report.failures ++ [⟨call.target.id, call.name, call.step, message⟩] } }

def unclean (r : Run σ) : Run σ := { r with clean := false }

/-- Delete a removed node. One that is borrowed or has never been written goes without asking. -/
def delete (w : Writer σ) (block : NodeId) (r : Run σ) (id : NodeId) : Run σ :=
  let d := r.document
  match d.node? id with
  | none => { r with document := d.purge block id }
  | some n =>
    if n.parent ≠ some block then { r with document := d.purge block id }
    else if d.isNeverWritten block id then { r with document := (d.purge block id).release id }
    else
      let call : Call := { step := .delete, target := d.target block id n }
      match w.refusal? r.writer call with
      | some message => (r.fail w call message).unclean
      | none =>
        { r with
          document := (d.purge block id).release id
          writer := w.next r.writer call
          report := { r.report with deleted := r.report.deleted ++ [id] } }

/-- Create a staged node. One that is refused is dropped and not tried again. -/
def create (w : Writer σ) (block : NodeId) (r : Run σ) (id : NodeId) : Run σ :=
  let d := r.document
  match d.node? id with
  | none => r
  | some n =>
    let call : Call := { step := .create, target := d.target block id n }
    match w.refusal? r.writer call with
    | some message => { r.fail w call message with document := (d.purge block id).release id }
    | none =>
      let range := w.range r.writer call
      let d := d.modifyNode id fun n ↦
        let n := { n with source := some range }
        if n.isContainer then n else n.commit.markWritten
      let d := d.modifyEntry block id fun e ↦
        { e with state := .existing, existsInSource := range.isBacked, staged := false }
      { r with
        document := d
        writer := w.next r.writer call
        report := { r.report with created := r.report.created ++ [id] } }

/-- Flush a modified node, a container by applying what is inside it. -/
def flush (w : Writer σ) (inner : NodeId → Run σ → Run σ) (block : NodeId) (r : Run σ)
    (id : NodeId) : Run σ :=
  let d := r.document
  match d.node? id with
  | none => r
  | some n =>
    if !n.modified then r
    else if n.isContainer then
      let after := inner id { r with clean := true }
      if after.clean then
        { after with document := after.document.modifyNode id Node.markWritten, clean := r.clean }
      else after
    else
      let call : Call := { step := .flush, target := d.target block id n }
      match w.refusal? r.writer call with
      | some message => (r.fail w call message).unclean
      | none =>
        { r with
          document := d.modifyNode id (·.commit.markWritten)
          writer := w.next r.writer call
          report := { r.report with flushed := r.report.flushed ++ [id] } }

def relocate (w : Writer σ) (block : NodeId) (r : Run σ) (id : NodeId) : Run σ :=
  let d := r.document
  match d.node? id with
  | none => r
  | some n =>
    let index := ((d.store? block).bind (·.logicalIndex? id)).getD 0
    let call : Call :=
      { step := .relocate, target := d.target block id n, newIndex := some index }
    match w.refusal? r.writer call with
    | some message => (r.fail w call message).unclean
    | none =>
      { r with
        document := d.modifyEntry block id fun e ↦ { e with state := .existing }
        writer := w.next r.writer call
        report := { r.report with relocated := r.report.relocated ++ [id] } }

/-- Write what is staged in a block: deletions, creations, then modified nodes, then relocations,
each in store order. A refusal stops nothing. -/
def block (w : Writer σ) : Nat → NodeId → Run σ → Run σ
  | 0, _, r => r
  | fuel + 1, id, r =>
    let r := (r.document.inState id .toBeRemoved).foldl (delete w id) r
    let r := (r.document.inState id .toBeAdded).foldl (create w id) r
    let r := (r.document.placeable id).foldl (flush w (block w fuel) id) r
    let r := (r.document.inState id .moved).foldl (relocate w id) r
    { r with document := r.document.modifyStore id Store.settle }

end Run

namespace Document

def settleWithin : Nat → Document → NodeId → Document
  | 0, d, _ => d
  | fuel + 1, d, block =>
    let d := (d.inState block .toBeRemoved).foldl (fun d id ↦
      if d.isOwnedBy id block then (d.purge block id).release id else d.purge block id) d
    let children := (d.entries block).map (·.node)
    let d := d.modifyStore block Store.settleAll
    let d := children.foldl (fun d id ↦
      if !d.isOwnedBy id block then d
      else if (d.store? id).isSome then settleWithin fuel d id
      else d.modifyNode id (·.commit.markWritten)) d
    d.modifyNode block Node.markWritten

/-- Make the changes inside an overlay final; no writer has a part in them. -/
def settleOverlay (d : Document) (overlay : NodeId) : Document :=
  settleWithin d.nodes.size d overlay

/-- Write everything that is staged. -/
def apply (d : Document) (w : Writer σ) (s : σ) : Run σ :=
  let start : Run σ := { document := d, writer := s }
  let r := if d.isModified root then Run.block w d.nodes.size root start else start
  let written :=
    if d.isModified root && r.clean then r.document.modifyNode root Node.markWritten
    else r.document
  { r with document := written.overlays.foldl (fun d overlay ↦
      if d.isModified overlay then d.settleOverlay overlay else d) written }

end Document

end BuildScript
