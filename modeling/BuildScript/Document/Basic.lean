import BuildScript.Error
import BuildScript.Policy
import BuildScript.Table

namespace BuildScript

structure DocumentId where
  text : String
  deriving DecidableEq, Repr

namespace DocumentId

def toJson (id : DocumentId) : Json := .text id.text

def ofJson? (j : Json) : Option DocumentId := j.text?.map DocumentId.mk

end DocumentId

/-- A tree of declarations and the overlays merged into it. Nodes and stores share their numbers:
the store of a container stands at the number of its node. -/
structure Document where
  id : DocumentId
  nodes : Table Node := {}
  stores : Table Store := {}
  overlays : List NodeId := []
  overlaySources : List (DocumentId × NodeId) := []
  diagnostics : List Diagnostic := []
  config : Config := {}

namespace Document

def root : NodeId := 0

def rootKind : BlockKind := "root"

def overlayKind : BlockKind := "overlay"

def node? (d : Document) (id : NodeId) : Option Node := d.nodes.get? id

def store? (d : Document) (id : NodeId) : Option Store := d.stores.get? id

def isLive (d : Document) (id : NodeId) : Bool := (d.node? id).isSome

def liveCount (d : Document) : Nat := d.nodes.ids.length

def entries (d : Document) (block : NodeId) : List Entry :=
  match d.store? block with
  | some s => s.entries
  | none => []

def nameOf (d : Document) (id : NodeId) : String :=
  match d.node? id with
  | some n => n.name.full
  | none => ""

def modifyNode (d : Document) (id : NodeId) (f : Node → Node) : Document :=
  { d with nodes := d.nodes.modify id f }

def modifyStore (d : Document) (id : NodeId) (f : Store → Store) : Document :=
  { d with stores := d.stores.modify id f }

/-- Give the next number to a node, and an empty store to a container. -/
def push (d : Document) (n : Node) : Document :=
  { d with
    nodes := d.nodes.push (some n)
    stores := d.stores.push (if n.isContainer then some {} else none) }

def nextId (d : Document) : NodeId := d.nodes.size

@[simp]
theorem node?_modifyNode (d : Document) (id : NodeId) (f : Node → Node) (i : NodeId) :
    (d.modifyNode id f).node? i = if id = i then (d.node? i).map f else d.node? i :=
  d.nodes.get?_modify id i f

@[simp]
theorem store?_modifyNode (d : Document) (id : NodeId) (f : Node → Node) (i : NodeId) :
    (d.modifyNode id f).store? i = d.store? i := rfl

@[simp]
theorem node?_modifyStore (d : Document) (id : NodeId) (f : Store → Store) (i : NodeId) :
    (d.modifyStore id f).node? i = d.node? i := rfl

@[simp]
theorem store?_modifyStore (d : Document) (id : NodeId) (f : Store → Store) (i : NodeId) :
    (d.modifyStore id f).store? i = if id = i then (d.store? i).map f else d.store? i :=
  d.stores.get?_modify id i f

@[simp]
theorem node?_push (d : Document) (n : Node) (i : NodeId) :
    (d.push n).node? i = if i = d.nextId then some n else d.node? i :=
  d.nodes.get?_push (some n) i

def new (id : DocumentId) (config : Config) : Document :=
  Document.push { id, config } { name := .empty, kind := .block rootKind, parent := none }

mutual

/-- Number a tree of declarations in pre-order, each node below its parent. The children of a leaf
are numbered too, but no store lists them. -/
def alloc (d : Document) (parent : NodeId) (state : EntryState) : Spec → Document
  | ⟨name, kind, children, source⟩ =>
    (d.push { name, kind, parent := some parent, source, modified := state = .toBeAdded }).allocAll
      d.nextId state children

def allocAll (d : Document) (parent : NodeId) (state : EntryState) : List Spec → Document
  | [] => d
  | spec :: rest =>
    let existsInSource := state = .existing && spec.isBacked
    ((d.alloc parent state spec).modifyStore parent (·.add d.nextId state existsInSource)).allocAll
      parent state rest

end

def isOwnedBy (d : Document) (node block : NodeId) : Bool :=
  (d.node? node).any (·.parent == some block)

def ownedChildren (d : Document) (block : NodeId) : List NodeId :=
  ((d.entries block).map (·.node)).filter (d.isOwnedBy · block)

def subtree (d : Document) : Nat → NodeId → List NodeId
  | 0, _ => []
  | fuel + 1, id => id :: (d.ownedChildren id).flatMap (d.subtree fuel)

def ownedSubtree (d : Document) (id : NodeId) : List NodeId :=
  if d.isLive id then d.subtree d.nodes.size id else []

/-- Take one node out of the document, together with its store and its entries in the blocks that
borrow it. -/
def evict (d : Document) (id : NodeId) : Document :=
  match d.node? id with
  | none => d
  | some n =>
    let d := n.holders.foldl (fun d holder ↦ d.modifyStore holder (·.purge id)) d
    { d with nodes := d.nodes.erase id, stores := d.stores.erase id }

def release (d : Document) (id : NodeId) : Document := (d.ownedSubtree id).foldl evict d

def lineageWithin (d : Document) : Nat → NodeId → List NodeId
  | 0, _ => []
  | fuel + 1, id =>
    match d.node? id with
    | none => []
    | some n =>
      id :: match n.parent with
        | some parent => d.lineageWithin fuel parent
        | none => []

def lineage (d : Document) (id : NodeId) : List NodeId := d.lineageWithin d.nodes.size id

/-- Mark a node and everything around it as modified. -/
def markModified (d : Document) (id : NodeId) : Document :=
  (d.lineage id).foldl (fun d id ↦ d.modifyNode id Node.markModified) d

def isModified (d : Document) (id : NodeId) : Bool := (d.node? id).any (·.modified)

def hasStagedChanges (d : Document) : Bool :=
  d.isModified root || d.stores.entries.any Store.isStaged ||
    d.nodes.entries.any (·.pending.isSome)

def takeDiagnostics (d : Document) : List Diagnostic × Document :=
  (d.diagnostics, { d with diagnostics := [] })

end Document

end BuildScript
