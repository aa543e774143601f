import BuildScript.EntryState

namespace BuildScript

abbrev NodeId := Nat

/-- The place of a node in a block: `staged` entries go away on a reset, and `restore` is the state
a removed entry comes back to. -/
structure Entry where
  node : NodeId
  state : EntryState
  existsInSource : Bool
  staged : Bool
  restore : Option EntryState
  deriving DecidableEq, Repr

namespace Entry

def fresh (node : NodeId) (state : EntryState) (existsInSource : Bool) : Entry :=
  ⟨node, state, existsInSource, state = .toBeAdded, none⟩

def isVisible (e : Entry) : Bool := e.state.isVisible

def isPlaceable (e : Entry) : Bool := e.state.isPlaceable

def isOwnVisible (e : Entry) : Bool := e.isVisible && e.state != .applied

/-- Stage the removal; a second removal keeps the first state to come back to. -/
def withdraw (e : Entry) : Entry :=
  if e.state = .toBeRemoved then e else { e with restore := some e.state, state := .toBeRemoved }

def revert (e : Entry) : Entry :=
  let state := if e.state = .toBeRemoved then e.restore.getD .existing else e.state
  { e with state := if state = .moved then .existing else state, restore := none }

end Entry

/-- The entries of one container in declaration order, and the order before the first move that
has not been written yet. -/
structure Store where
  entries : List Entry := []
  baseline : Option (List NodeId) := none
  deriving DecidableEq, Repr

namespace Store

def nodes (s : Store) : List NodeId := s.entries.map (·.node)

def size (s : Store) : Nat := s.entries.length

def isEmpty (s : Store) : Bool := s.entries.isEmpty

def position? (s : Store) (node : NodeId) : Option Nat := s.entries.findIdx? (·.node == node)

def find? (s : Store) (node : NodeId) : Option Entry := s.entries.find? (·.node == node)

def state? (s : Store) (node : NodeId) : Option EntryState := (s.find? node).map (·.state)

def contains (s : Store) (node : NodeId) : Bool := (s.position? node).isSome

def placeable (s : Store) : List NodeId := (s.entries.filter (·.isPlaceable)).map (·.node)

def inState (s : Store) (state : EntryState) : List NodeId :=
  (s.entries.filter (·.state = state)).map (·.node)

def logicalIndex? (s : Store) (node : NodeId) : Option Nat := s.placeable.findIdx? (· == node)

/-- The physical index right behind the first `count` placeable entries, or the end. -/
def slot : List Entry → Nat → Nat
  | _, 0 | [], _ => 0
  | e :: rest, count + 1 => slot rest (if e.isPlaceable then count else count + 1) + 1

/-- The physical index for a logical one; negative indices count as zero. -/
def realIndex (s : Store) (index : Int) : Nat := slot s.entries index.toNat

def add (s : Store) (node : NodeId) (state : EntryState) (existsInSource : Bool) : Store :=
  { s with entries := s.entries ++ [.fresh node state existsInSource] }

def addAt (s : Store) (node : NodeId) (state : EntryState) (existsInSource : Bool) (index : Int) :
    Store :=
  { s with entries := s.entries.insertIdx (s.realIndex index) (.fresh node state existsInSource) }

def modifyFirst (node : NodeId) (f : Entry → Entry) : List Entry → List Entry
  | [] => []
  | e :: rest => if e.node = node then f e :: rest else e :: modifyFirst node f rest

def modifyEntry (s : Store) (node : NodeId) (f : Entry → Entry) : Store :=
  { s with entries := modifyFirst node f s.entries }

def remove (s : Store) (node : NodeId) : Store := s.modifyEntry node Entry.withdraw

def replacementState : EntryState → EntryState
  | .applied => .applied
  | .hidden => .hidden
  | _ => .toBeAdded

/-- Put a staged entry for `new` in front of the first entry for `old` and withdraw that one. -/
def replaceFirst (old new : NodeId) : List Entry → List Entry
  | [] => []
  | e :: rest =>
    if e.node = old then
      { Entry.fresh new (replacementState e.state) false with staged := true } :: e.withdraw :: rest
    else e :: replaceFirst old new rest

def replace (s : Store) (old new : NodeId) : Store :=
  { s with entries := replaceFirst old new s.entries }

def picks (s : Store) (p : NodeId → Bool) : List NodeId := s.placeable.filter p

def mapPicked (s : Store) (p : NodeId → Bool) (f : Entry → Entry) : Store :=
  { s with entries := s.entries.map fun e ↦ if e.isPlaceable && p e.node then f e else e }

/-- Hiding is not staged: no reset brings the entry back. -/
def hideAll (s : Store) (p : NodeId → Bool) : Store :=
  s.mapPicked p fun e ↦ { e with state := .hidden }

def removeAll (s : Store) (p : NodeId → Bool) : Store := s.mapPicked p Entry.withdraw

def query (s : Store) (p : NodeId → Bool) (withHidden withRemoved : Bool) : List NodeId :=
  let shown (e : Entry) : Bool :=
    match e.state with
    | .hidden => withHidden
    | .toBeRemoved => withRemoved
    | _ => true
  (s.entries.filter fun e ↦ shown e && p e.node).map (·.node)

def lastWhere? (s : Store) (p : NodeId → Bool) : Option NodeId :=
  (s.entries.reverse.find? fun e ↦ e.isVisible && p e.node).map (·.node)

/-- Take the first entry for a node out and insert it at a logical index of what is left. The
order before the first move is kept for a reset. -/
def moveTo (s : Store) (node : NodeId) (index : Int) : Store :=
  match s.find? node with
  | none => s
  | some e =>
    let rest := s.entries.eraseP (·.node == node)
    let e := if e.state = .toBeAdded then e else { e with state := .moved }
    { entries := rest.insertIdx (slot rest index.toNat) e
      baseline := some (s.baseline.getD s.nodes) }

/-- Bring the entries of the listed nodes to the front, in the order of the list. -/
def arrange : List NodeId → List Entry → List Entry
  | [], entries => entries
  | node :: order, entries =>
    match entries.find? (·.node == node) with
    | some e => e :: arrange order (entries.eraseP (·.node == node))
    | none => arrange order entries

def stagedNodes (s : Store) : List NodeId := (s.entries.filter (·.staged)).map (·.node)

/-- Throw staged entries away, bring removed ones back and undo the moves. -/
def reset (s : Store) : Store :=
  let kept := (s.entries.filter (!·.staged)).map Entry.revert
  { entries := arrange (s.baseline.getD []) kept, baseline := none }

def purge (s : Store) (node : NodeId) : Store :=
  { s with entries := s.entries.eraseP (·.node == node) }

def settleBaseline (s : Store) : Store :=
  if s.entries.any (·.state = .moved) then s else { s with baseline := none }

def isStaged (s : Store) : Bool := s.entries.any fun e ↦ e.staged || e.state.isPending

end Store

end BuildScript
