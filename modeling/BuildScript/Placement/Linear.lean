import BuildScript.Store

namespace BuildScript.Placement

/-- What a rank demands: lower ranks come first. -/
def rankEdges (placed : List NodeId) (new : NodeId) (rank : NodeId → Option Nat) :
    List (NodeId × NodeId) :=
  match rank new with
  | none => []
  | some r => placed.filterMap fun id ↦
    match rank id with
    | none => none
    | some s => if s < r then some (id, new) else if r < s then some (new, id) else none

/-- The nodes already placed keep their order, and the new one obeys the ranks. -/
def constraints (placed : List NodeId) (new : NodeId) (rank : NodeId → Option Nat) :
    List (NodeId × NodeId) :=
  placed.zip placed.tail ++ rankEdges placed new rank

def advance (edges : List (NodeId × NodeId)) (next : NodeId) (waiting : List (NodeId × Nat)) :
    List (NodeId × Nat) :=
  (waiting.filter (·.1 != next)).map fun (id, count) ↦ (id, count - edges.count (next, id))

/-- Emit, again and again, the first node that waits for no other; fail when there is none. -/
def emit (edges : List (NodeId × NodeId)) : Nat → List (NodeId × Nat) → Option (List NodeId)
  | 0, _ => some []
  | fuel + 1, waiting =>
    match waiting.find? (·.2 = 0) with
    | none => none
    | some (next, _) => (emit edges fuel (advance edges next waiting)).map (next :: ·)

/-- Bring a sequence into an order that obeys the rank of the new node, or fail on a contradiction.
Of the nodes that could come next those already placed go first, so the new one lands as late as
possible. -/
def linearize (sequence : List NodeId) (new : NodeId) (rank : NodeId → Option Nat) :
    Option (List NodeId) :=
  if new ∈ sequence then
    let placed := sequence.filter (· != new)
    let edges := constraints placed new rank
    let waiting := (placed ++ [new]).map fun id ↦ (id, edges.countP (·.2 == id))
    emit edges sequence.length waiting
  else none

end BuildScript.Placement
