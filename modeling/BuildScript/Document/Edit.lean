import BuildScript.Document.Dependency
import BuildScript.Document.Placement

namespace BuildScript

namespace Document

def container (d : Document) (block : NodeId) : Except ModelError Store :=
  match d.node? block, d.store? block with
  | none, _ => .error (.nodeNotFound block)
  | some _, none => .error (.notAContainer block)
  | some _, some s => .ok s

def stateIn (d : Document) (block node : NodeId) : Except ModelError EntryState := do
  match (← d.container block).state? node with
  | none => .error (.notInStore block node)
  | some state => .ok state

def isApplied (d : Document) (block node : NodeId) : Except ModelError Bool := do
  return (← d.stateIn block node) = .applied

/-- Entries borrowed from an overlay cannot be removed. -/
def checkRemove (d : Document) (block node : NodeId) : Except ModelError EntryState := do
  let state ← d.stateIn block node
  if state = .applied then .error (.overlayImmutable block node) else .ok state

def checkReplace (d : Document) (block node : NodeId) : Except ModelError EntryState := do
  let state ← d.checkRemove block node
  if d.isOwnedBy node block then .ok state else .error (.wrongParent block node)

def checkMove (d : Document) (block node : NodeId) : Except ModelError Unit := do
  let s ← d.container block
  if !d.isLive node then .error (.nodeNotFound node)
  else if !d.isOwnedBy node block then .error (.wrongParent block node)
  else
    match s.state? node with
    | none => .error (.notInStore block node)
    | some state => if state.isPlaceable then .ok () else .error (.notMovable node state)

def checkSet (d : Document) (node : NodeId) : Except ModelError Unit :=
  match d.node? node with
  | none => .error (.nodeNotFound node)
  | some n => if n.isSettable then .ok () else .error (.notSettable node)

def isNamed (d : Document) (name : String) (id : NodeId) : Bool :=
  (d.node? id).any (·.isCalled name)

def hideNamed (d : Document) (block : NodeId) (name : String) : Document :=
  d.modifyStore block (·.hideAll (d.isNamed name))

/-- List a new node in the place of an old one, also in the blocks that borrow the old one. -/
def putInPlace (d : Document) (block old new : NodeId) : Document :=
  let d := d.modifyStore block (·.replace old new)
  let holders := ((d.node? old).map (·.holders)).getD []
  let d := holders.foldl (fun d holder ↦
    if (d.store? holder).any (·.contains old) then
      (d.modifyStore holder (·.replace old new)).markModified holder
    else d) d
  let d := d.modifyNode new fun n ↦ { n with holders }
  ((d.dropEdges old).recordEdges new).markModified block

def stageValue (d : Document) (node : NodeId) (value : Value) : Document :=
  ((d.modifyNode node fun n ↦ { n with pending := some value }).recordEdges node).markModified node

def literal? (d : Document) (s : Store) (name : String) : Option NodeId :=
  (s.picks fun id ↦ (d.node? id).any fun n ↦ n.tag = .literal && n.isCalled name).getLast?

end Document

/-- A change to a document that may be refused. The document is there after a refusal too. -/
abbrev EditM := ExceptT ModelError (StateM Document)

namespace EditM

open Document

def alloc (block : NodeId) (state : EntryState) (spec : Spec) : EditM NodeId := do
  let d ← get
  set (d.alloc block state spec)
  return d.nextId

def modifyContainer (block : NodeId) (f : Store → Store) : EditM Unit := do
  let _ ← (← get).container block
  modify (·.modifyStore block f)

/-- Number a tree of declarations below a container, list its root there and record its
references. The container is looked up again once the nodes are there. -/
def graft (block : NodeId) (state : EntryState) (spec : Spec) (list : NodeId → Store → Store) :
    EditM NodeId := do
  let _ ← (← get).container block
  let node ← alloc block state spec
  modifyContainer block (list node)
  modify (·.recordEdges node)
  return node

def addParsed (block : NodeId) (spec : Spec) : EditM NodeId :=
  graft block .existing spec fun id s ↦ s.add id .existing spec.isBacked

def addParsedAtFront (block : NodeId) (spec : Spec) : EditM NodeId :=
  graft block .existing spec fun id s ↦ s.addAt id .existing spec.isBacked 0

/-- A declaration that resets a property hides the earlier declarations of it. -/
def addParsedResetting (block : NodeId) (spec : Spec) (name : String) : EditM NodeId := do
  let _ ← (← get).container block
  modify (·.hideNamed block name)
  addParsed block spec

/-- Stage a declaration at its canonical place. -/
def add (block : NodeId) (spec : Spec) : EditM NodeId := do
  let node ← graft block .toBeAdded spec fun id s ↦ s.add id .toBeAdded false
  modify fun d ↦ (d.markModified block).placeNew block node
  return node

def addAt (block : NodeId) (spec : Spec) (index : Int) : EditM NodeId := do
  let node ← graft block .toBeAdded spec fun id s ↦ s.addAt id .toBeAdded false index
  modify (·.markModified block)
  return node

/-- Stage a declaration in front of the first one with a tag, or at the end. -/
def addBeforeAllOfKind (block : NodeId) (spec : Spec) (tag : Tag) : EditM NodeId := do
  let d ← get
  let placeable := (← d.container block).placeable
  addAt block spec (placeable.findIdx fun id ↦ (d.node? id).any (·.tag = tag) : Nat)

def remove (block node : NodeId) : EditM EntryState := do
  let _ ← (← get).checkRemove block node
  let previous ← (← get).stateIn block node
  if previous ≠ .toBeRemoved then
    modify fun d ↦ ((d.modifyStore block (·.remove node)).dropEdges node).markModified block
  return previous

def removeNamed (block : NodeId) (name : String) : EditM (List NodeId) := do
  let d ← get
  let removed := (← d.container block).picks (d.isNamed name)
  if !removed.isEmpty then
    modifyContainer block (·.removeAll (d.isNamed name))
    modify fun d ↦ (removed.foldl dropEdges d).markModified block
  return removed

def hideNamed (block : NodeId) (name : String) : EditM (List NodeId) := do
  let d ← get
  let s ← d.container block
  set (d.hideNamed block name)
  return s.picks (d.isNamed name)

/-- Stage a declaration in the place of another one, also in the blocks that borrow it. -/
def replace (block old : NodeId) (spec : Spec) : EditM (NodeId × EntryState) := do
  let _ ← (← get).checkReplace block old
  let new ← alloc block .toBeAdded spec
  let previous ← (← get).stateIn block old
  modify (·.putInPlace block old new)
  return (new, previous)

def moveTo (block node : NodeId) (index : Int) : EditM Unit := do
  (← get).checkMove block node
  let _ ← (← get).stateIn block node
  modify fun d ↦ (d.modifyStore block (·.moveTo node index)).markModified block

def setValue (node : NodeId) (value : Value) : EditM Unit := do
  let d ← get
  d.checkSet node
  set (d.stageValue node value)

def setNewLiteral (block : NodeId) (name : String) (value : Value) : EditM NodeId := do
  let d ← get
  match d.literal? (← d.container block) name with
  | some node => do setValue node value; return node
  | none => add block (.literal (.parse name) value)

end EditM

inductive Edit
  | addParsed (block : NodeId) (spec : Spec)
  | addParsedAtFront (block : NodeId) (spec : Spec)
  | addParsedResetting (block : NodeId) (spec : Spec) (name : String)
  | add (block : NodeId) (spec : Spec)
  | addAt (block : NodeId) (spec : Spec) (index : Int)
  | addBeforeAllOfKind (block : NodeId) (spec : Spec) (tag : Tag)
  | remove (block node : NodeId)
  | removeNamed (block : NodeId) (name : String)
  | hideNamed (block : NodeId) (name : String)
  | replace (block old : NodeId) (spec : Spec)
  | moveTo (block node : NodeId) (index : Int)
  | setValue (node : NodeId) (value : Value)
  | setNewLiteral (block : NodeId) (name : String) (value : Value)

inductive Outcome
  | done
  | node (id : NodeId)
  | nodes (ids : List NodeId)
  | state (previous : EntryState)
  | replacement (id : NodeId) (previous : EntryState)

namespace Edit

def perform : Edit → EditM Outcome
  | addParsed block spec => .node <$> EditM.addParsed block spec
  | addParsedAtFront block spec => .node <$> EditM.addParsedAtFront block spec
  | addParsedResetting block spec name => .node <$> EditM.addParsedResetting block spec name
  | add block spec => .node <$> EditM.add block spec
  | addAt block spec index => .node <$> EditM.addAt block spec index
  | addBeforeAllOfKind block spec tag => .node <$> EditM.addBeforeAllOfKind block spec tag
  | remove block node => .state <$> EditM.remove block node
  | removeNamed block name => .nodes <$> EditM.removeNamed block name
  | hideNamed block name => .nodes <$> EditM.hideNamed block name
  | replace block old spec =>
    (fun (id, previous) ↦ .replacement id previous) <$> EditM.replace block old spec
  | moveTo block node index => (fun _ ↦ .done) <$> EditM.moveTo block node index
  | setValue node value => (fun _ ↦ .done) <$> EditM.setValue node value
  | setNewLiteral block name value => .node <$> EditM.setNewLiteral block name value

def run (edit : Edit) (d : Document) : Except ModelError Outcome × Document :=
  Id.run (edit.perform.run.run d)

end Edit

end BuildScript
