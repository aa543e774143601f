import BuildScript.Document.Basic

namespace BuildScript.Document

def query (d : Document) (block : NodeId) (p : Node → Bool) (withHidden withRemoved : Bool) :
    List NodeId :=
  match d.store? block with
  | some s => s.query (fun id ↦ (d.node? id).any p) withHidden withRemoved
  | none => []

def state? (d : Document) (block node : NodeId) : Option EntryState :=
  (d.store? block).bind (·.state? node)

def value? (d : Document) (node : NodeId) : Option Value := (d.node? node).bind Node.value?

def visible (d : Document) (block : NodeId) (p : Node → Bool) : List (Entry × Node) :=
  ((d.entries block).filter (·.isVisible)).filterMap fun e ↦
    ((d.node? e.node).filter p).map (e, ·)

/-- The last visible node that `p` accepts. One that is borrowed from an overlay answers only when
the block has none of its own. -/
def lookup (d : Document) (block : NodeId) (p : Node → Bool) : Option NodeId :=
  let hits := (d.visible block p).map Prod.fst
  ((hits.filter (·.state != .applied)).getLast? <|> hits.getLast?).map (·.node)

structure Answer where
  name : String
  node : NodeId
  borrowed : Bool

/-- Take a further declaration into account. It keeps the place of the first one of its name, and
takes over unless it is borrowed and the earlier one is not. -/
def declare (new : Answer) : List Answer → List Answer
  | [] => [new]
  | old :: rest =>
    if old.name = new.name then
      (if new.borrowed && !old.borrowed then old else new) :: rest
    else old :: declare new rest

def answers (d : Document) (block : NodeId) (p : Node → Bool) : List (String × NodeId) :=
  let answers := (d.visible block p).foldl (fun answers (e, n) ↦
    declare ⟨n.name.full, e.node, e.state = .applied⟩ answers) []
  answers.map fun a ↦ (a.name, a.node)

/-- The names a block declares, in the order of their first declaration, with the node that
answers for each. -/
def propertyMap (d : Document) (block : NodeId) : List (String × NodeId) :=
  d.answers block (!·.isVariable)

def variableMap (d : Document) (block : NodeId) : List (String × NodeId) :=
  d.answers block Node.isVariable

def elementMap (d : Document) (block : NodeId) : List (String × NodeId) :=
  d.answers block fun _ ↦ true

def propertyNamed? (d : Document) (block : NodeId) (name : String) : Option NodeId :=
  d.lookup block fun n ↦ !n.isVariable && n.isCalled name

def variableNamed? (d : Document) (block : NodeId) (name : String) : Option NodeId :=
  d.lookup block fun n ↦ n.isVariable && n.isCalled name

def elementNamed? (d : Document) (block : NodeId) (name : String) : Option NodeId :=
  d.lookup block (·.isCalled name)

def propertiesNamed (d : Document) (block : NodeId) (name : String) : List NodeId :=
  d.query block (fun n ↦ !n.isVariable && n.isCalled name) false false

def propertiesOfKind (d : Document) (block : NodeId) (tag : Tag) : List NodeId :=
  d.query block (fun n ↦ !n.isVariable && n.tag = tag) false false

def propertiesNamedOfKind (d : Document) (block : NodeId) (name : String) (tag : Tag) :
    List NodeId :=
  d.query block (fun n ↦ !n.isVariable && n.tag = tag && n.isCalled name) false false

def allElements (d : Document) (block : NodeId) : List NodeId :=
  d.query block (fun _ ↦ true) false false

def currentElements (d : Document) (block : NodeId) : List NodeId :=
  ((d.entries block).filter fun e ↦ e.state = .existing || e.state = .toBeAdded).map (·.node)

def sourceElements (d : Document) (block : NodeId) : List NodeId :=
  ((d.entries block).filter (·.existsInSource)).map (·.node)

def sourceElement? (d : Document) (block : NodeId) (name : String) (isVariable : Bool) :
    Option NodeId :=
  (d.sourceElements block).reverse.find? fun id ↦
    (d.node? id).any fun n ↦ n.isVariable == isVariable && n.isCalled name

/-- The last visible property of a name in front of a child, or up to it. Where the child is not
visible the whole block counts, and without a child it is the property itself. -/
def propertyBefore? (d : Document) (block : NodeId) (child : Option NodeId) (name : String)
    (includeSelf : Bool) : Option NodeId :=
  match child with
  | none => d.propertyNamed? block name
  | some child =>
    let visible := (d.entries block).filter (·.isVisible)
    let before := visible.takeWhile (·.node != child)
    let range := if includeSelf then visible.take (before.length + 1) else before
    (range.filter fun e ↦
      (d.node? e.node).any fun n ↦ !n.isVariable && n.isCalled name).getLast?.map (·.node)

/-- The node after which a node is written: the last placeable one in front of it with the same
qualifier. -/
def anchor? (d : Document) (block node : NodeId) : Option NodeId := do
  let s ← d.store? block
  let n ← d.node? node
  if s.contains node then
    let before := s.entries.takeWhile (·.node != node)
    let matching := before.filter fun e ↦
      e.isPlaceable && (d.node? e.node).any (·.name.qualifier == n.name.qualifier)
    matching.getLast?.map (·.node)
  else none

def containedWithin (d : Document) (withProperties : Bool) : Nat → NodeId → List NodeId
  | 0, _ => []
  | fuel + 1, block =>
    ((d.entries block).filter (·.isOwnVisible)).flatMap fun e ↦
      match d.node? e.node with
      | none => []
      | some n =>
        if n.isBlock then e.node :: d.containedWithin withProperties fuel e.node
        else if withProperties then [e.node]
        else []

/-- The visible blocks inside a block at any depth, in pre-order, with or without the other
declarations. -/
def containedElements (d : Document) (block : NodeId) (withProperties : Bool) : List NodeId :=
  d.containedWithin withProperties d.nodes.size block

end BuildScript.Document
