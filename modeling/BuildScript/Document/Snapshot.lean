import BuildScript.Digest.Sha256
import BuildScript.Document.Query

namespace BuildScript

/-- What a reader sees of a node and below it: no states and no numbers. `items` are those of a list
or the arguments of a call. -/
structure Snapshot where
  name : String
  tag : Tag
  blockKind : Option BlockKind := none
  value : Option Value := none
  items : List Value := []
  method : Option String := none
  target : Option String := none
  children : List Snapshot := []

namespace Snapshot

def field (name : String) (content : Option Json) : List (String × Json) :=
  content.toList.map (name, ·)

def listField (name : String) (items : List Json) : List (String × Json) :=
  field name (if items.isEmpty then none else some (.array items))

mutual

/-- Name and tag always, then what the node has of block kind, value, items, method, target and
children. -/
def toJson : Snapshot → Json
  | ⟨name, tag, blockKind, value, items, method, target, children⟩ => .record <|
    [("name", .text name), ("tag", .text tag.label)] ++
    field "block_kind" (blockKind.map Json.text) ++
    field "value" (value.map Value.toJson) ++
    listField "items" (items.map Value.toJson) ++
    field "method" (method.map Json.text) ++
    field "target" (target.map Json.text) ++
    listField "children" (allToJson children)

def allToJson : List Snapshot → List Json
  | [] => []
  | s :: rest => s.toJson :: allToJson rest

end

def toText (s : Snapshot) : String := s.toJson.render

def digest (s : Snapshot) : String := Sha256.hexDigest s.toText

end Snapshot

def Snapshot.ofNode (n : Node) (children : List Snapshot) : Snapshot :=
  let shown : Snapshot := { name := n.name.full, tag := n.tag, value := n.value?, children }
  match n.kind with
  | .block kind => { shown with blockKind := some kind }
  | .list items => { shown with items }
  | .call method arguments => { shown with method := some method, items := arguments }
  | .inclusion target => { shown with target := some target }
  | .literal _ | .var _ | .map => shown

namespace Document

def snapshotWithin (d : Document) : Nat → NodeId → Option Snapshot
  | 0, _ => none
  | fuel + 1, id => (d.node? id).map fun n ↦
    .ofNode n (((d.entries id).filter (·.isVisible)).filterMap fun e ↦
      d.snapshotWithin fuel e.node)

def snapshotOf (d : Document) (id : NodeId) : Option Snapshot := d.snapshotWithin d.nodes.size id

def snapshot (d : Document) : Snapshot :=
  (d.snapshotOf root).getD { name := "", tag := .block, blockKind := some rootKind }

def fingerprint (d : Document) : String := d.snapshot.digest

end Document

end BuildScript
