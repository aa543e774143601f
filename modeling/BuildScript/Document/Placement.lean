import BuildScript.Document.Query
import BuildScript.Placement.Increasing
import BuildScript.Placement.Linear

namespace BuildScript

namespace Store

/-- The nodes that have to move to turn one order into another: all but those of a longest part
that is in order already. -/
def displaced (current target : List NodeId) : List NodeId :=
  let places := target.filterMap fun id ↦ current.findIdx? (· == id)
  let kept := (Placement.longestIncreasing places).filterMap (target[·]?)
  target.filter (!kept.contains ·)

def moveBehind (s : Store) (node : NodeId) (before : Option NodeId) : Store :=
  match before with
  | none => s.moveTo node 0
  | some before =>
    let beforeAt := (s.logicalIndex? before).getD 0
    let comesFirst := (s.logicalIndex? node).any (· < beforeAt)
    s.moveTo node (if comesFirst then beforeAt else beforeAt + 1 : Nat)

/-- Turn the order of the placeable entries into the target order with the fewest moves. -/
def realizeOrder (s : Store) (current target : List NodeId) : Store :=
  let moving := displaced current target
  (target.zip (none :: target.map some)).foldl (fun s (node, before) ↦
    if moving.contains node then s.moveBehind node before else s) s

end Store

namespace Document

def rankIn (groups : List (List String)) (name : String) : Option Nat :=
  groups.findIdx? (·.contains name)

def rankOf (d : Document) (kind : BlockKind) (id : NodeId) : Option Nat :=
  (d.node? id).bind fun n ↦ rankIn (d.config.orderFor kind) n.name.full

def conflictMessage (name : String) (kind : BlockKind) : String :=
  "canonical order for '" ++ name ++ "' in block kind '" ++ kind ++
    "' contradicts existing order; appended"

/-- Bring a node that has just been appended to a block to its canonical place. Where the order of
the other nodes contradicts every place, it stays at the end and the conflict goes on record. -/
def placeNew (d : Document) (block node : NodeId) : Document :=
  match (d.node? block).bind (·.kind.blockKind?), d.store? block with
  | some kind, some s =>
    if (d.rankOf kind node).isNone then d
    else
      match Placement.linearize s.placeable node (d.rankOf kind) with
      | some target => d.modifyStore block (·.realizeOrder s.placeable target)
      | none =>
        let message := conflictMessage (d.nameOf node) kind
        { d with diagnostics := d.diagnostics ++ [⟨.placementConflict, block, node, message⟩] }
  | _, _ => d

end Document

end BuildScript
