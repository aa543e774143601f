import BuildScript.Document.Query

namespace BuildScript

/-- One edge for every reference of a node, in textual order, with its parent as the scope. -/
def Node.scanEdges (id : NodeId) (n : Node) : Node :=
  { n with edges := n.references.map fun reference ↦
      ⟨id, reference, n.parent.getD Document.root⟩ }

namespace Document

def recordEdges (d : Document) (id : NodeId) : Document :=
  (d.ownedSubtree id).foldl (fun d id ↦ d.modifyNode id (Node.scanEdges id)) d

def dropEdges (d : Document) (id : NodeId) : Document :=
  (d.ownedSubtree id).foldl (fun d id ↦ d.modifyNode id fun n ↦ { n with edges := [] }) d

def dependenciesWithin (d : Document) : Nat → NodeId → List Dependency
  | 0, _ => []
  | fuel + 1, id =>
    match d.node? id with
    | none => []
    | some n =>
      n.edges ++ ((d.entries id).filter (·.isOwnVisible)).flatMap fun e ↦
        d.dependenciesWithin fuel e.node

/-- The edges of a node and of its own visible descendants. -/
def dependencies (d : Document) (id : NodeId) : List Dependency :=
  d.dependenciesWithin d.nodes.size id

def allDependencies (d : Document) : List Dependency := d.dependencies root

def lookupPast (d : Document) (block : NodeId) (name : String) (exclude : NodeId) :
    Option NodeId :=
  let hits := (d.visible block (·.isCalled name)).map fun (e, _) ↦ e.node
  (hits.filter (· != exclude)).getLast?

/-- The ways to cut a reference into a declared name and a path below it, longest name first. -/
def cuts (parts : List String) : List (String × List String) :=
  (List.range parts.length).reverse.map fun i ↦
    ((Name.mk (parts.take (i + 1))).full, parts.drop (i + 1))

/-- Resolve a path from inside a block. A node never resolves to itself: where it is the one that
answers for a name, the declaration it shadows decides. -/
def resolveIn (d : Document) (exclude : NodeId) : Nat → NodeId → List String → Option NodeId
  | 0, _, _ => none
  | fuel + 1, block, parts =>
    let below (id : NodeId) (path : List String) : Option NodeId :=
      if path.isEmpty then some id
      else if (d.store? id).isSome then d.resolveIn exclude fuel id path
      else none
    let attempt (cut : String × List String) : Option (Option NodeId) :=
      match d.elementNamed? block cut.1 with
      | none => none
      | some found =>
        if found = exclude then (d.lookupPast block cut.1 exclude).map (below · cut.2)
        else (below found cut.2).map some
    ((cuts parts).findSome? attempt).join

/-- The target of a reference: the innermost block around the scope that declares it decides.
Nothing in scope may declare it. -/
def resolve? (d : Document) (dependency : Dependency) : Option NodeId :=
  let parts := (Name.parse dependency.reference).parts
  (d.lineage dependency.scope).findSome? fun block ↦
    d.resolveIn dependency.origin parts.length block parts

def resolveReference? (d : Document) (origin : NodeId) (reference : String) : Option NodeId := do
  let scope ← (← d.node? origin).parent
  d.resolve? ⟨origin, reference, scope⟩

end Document

end BuildScript
