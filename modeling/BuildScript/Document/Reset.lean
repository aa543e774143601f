import BuildScript.Document.Dependency

namespace BuildScript.Document

def discards (d : Document) (blocks : List NodeId) : List (NodeId × NodeId) :=
  blocks.flatMap fun block ↦
    match d.store? block with
    | some s => s.stagedNodes.map (block, ·)
    | none => []

/-- Reset the given blocks in turn, then throw away the staged nodes and all pending values, and
scan the references again. -/
def resetInOrder (d : Document) (blocks : List NodeId) : Document :=
  let discarded := d.discards blocks
  let d := blocks.foldl (fun d block ↦ d.modifyStore block Store.reset) d
  let d := discarded.foldl (fun d (block, node) ↦
    if d.isOwnedBy node block then d.release node else d) d
  { d with nodes := d.nodes.map fun id n ↦
      Node.scanEdges id { n with pending := none, modified := false } }

def reset (d : Document) : Document := d.resetInOrder d.stores.ids

def discardCount (d : Document) : Nat := (d.discards d.stores.ids).length

end BuildScript.Document
