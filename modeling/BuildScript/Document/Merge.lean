import BuildScript.Document.Dependency

namespace BuildScript

/-- What a merge has done: the overlay it made, the one it put away, how many entries the document
now borrows, how many blocks it got, and the names of the inclusions passed over. -/
structure MergeReport where
  overlay : NodeId
  superseded : Option NodeId
  applied : Nat := 0
  synthesized : Nat := 0
  skipped : List String := []
  deriving DecidableEq, Repr

namespace Document

structure Merging where
  document : Document
  applied : Nat := 0
  synthesized : Nat := 0
  skipped : List String := []

/-- The copy of a node that an overlay gets: what a reader sees of it. -/
def copyOf (n : Node) (parent : NodeId) : Node :=
  { name := n.name
    kind := match n.value? with
      | some v => n.kind.withValue v
      | none => n.kind
    parent := some parent }

/-- Copy the visible declarations of another document's block, at any depth, without the
inclusions. -/
def copyBlock (other : Document) : Nat → NodeId → NodeId → Merging → Merging
  | 0, _, _, m => m
  | fuel + 1, source, target, m =>
    (other.allElements source).foldl (fun m id ↦
      match other.node? id with
      | none => m
      | some n =>
        if n.tag = .inclusion then { m with skipped := m.skipped ++ [n.name.full] }
        else
          let copy := m.document.nextId
          let d := (m.document.push (copyOf n target)).modifyStore target
            (·.add copy .existing false)
          let m := { m with document := d }
          if n.isContainer then copyBlock other fuel id copy m else m) m

def borrow (m : Merging) (block node : NodeId) : Merging :=
  { m with
    document := (m.document.modifyStore block (·.add node .applied false)).modifyNode node
      fun n ↦ { n with holders := n.holders ++ [block] }
    applied := m.applied + 1 }

def synthesize (m : Merging) (parent : NodeId) (name : String) (kind : BlockKind) : Merging :=
  let id := m.document.nextId
  { m with
    document := (m.document.push
      { name := .parse name, kind := .block kind, parent := some parent }).modifyStore parent
        (·.add id .existing false)
    synthesized := m.synthesized + 1 }

/-- Fold the declarations of an overlay's block into a block, name by name. Blocks on both sides
are merged; a block the target lacks is made first if its kind is known; all else is borrowed. -/
def mergeBlock : Nat → NodeId → NodeId → Merging → Merging
  | 0, _, _, m => m
  | fuel + 1, target, source, m =>
    let ours := m.document.propertyMap target
    let enclosing := ((m.document.node? target).bind (·.kind.blockKind?)).getD rootKind
    (m.document.propertyMap source).foldl (fun m (name, theirs) ↦
      let isBlock (id : NodeId) : Bool := (m.document.node? id).any Node.isBlock
      match ours.lookup name with
      | some mine =>
        if isBlock mine && isBlock theirs then mergeBlock fuel mine theirs m
        else borrow m target theirs
      | none =>
        match m.document.config.kindOf name enclosing with
        | some kind =>
          if isBlock theirs then
            mergeBlock fuel m.document.nextId theirs (synthesize m target name kind)
          else borrow m target theirs
        | none => borrow m target theirs) m

def supersede (d : Document) (source : DocumentId) : Option NodeId × Document :=
  match d.overlaySources.lookup source with
  | none => (none, d)
  | some overlay =>
    let d := { d with
      overlaySources := d.overlaySources.filter (·.1 != source)
      overlays := d.overlays.filter (· != overlay) }
    (some overlay, d.release overlay)

/-- Take over what a reader of another document sees: copy it into an overlay and fold that into
the root. An earlier overlay of the same document is put away first. -/
def merge (d : Document) (other : Document) : MergeReport × Document :=
  let (superseded, d) := d.supersede other.id
  let overlay := d.nextId
  let d := d.push { name := .empty, kind := .block overlayKind, parent := none }
  let m := copyBlock other other.nodes.size root overlay { document := d }
  let d := m.document.recordEdges overlay
  let d := { d with
    overlays := d.overlays ++ [overlay]
    overlaySources := d.overlaySources ++ [(other.id, overlay)] }
  let m := mergeBlock d.nodes.size root overlay { m with document := d }
  ({ overlay, superseded
     applied := m.applied, synthesized := m.synthesized, skipped := m.skipped }, m.document)

end Document

end BuildScript
