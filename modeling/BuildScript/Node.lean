import BuildScript.Name
import BuildScript.SourceRange
import BuildScript.Store
import BuildScript.Value

namespace BuildScript

def NodeId.label (id : NodeId) : String := "#" ++ toString id

/-- What sort of block a block is, such as `android`; grammar and order depend on it. -/
abbrev BlockKind := String

inductive Kind
  | block (kind : BlockKind)
  | literal (value : Value)
  | list (items : List Value)
  | map
  | call (method : String) (arguments : List Value)
  | var (value : Value)
  | inclusion (target : String)
  deriving DecidableEq, Repr

inductive Tag
  | block
  | literal
  | list
  | map
  | call
  | var
  | inclusion
  deriving DecidableEq, Repr

namespace Tag

def all : List Tag := [block, literal, list, map, call, var, inclusion]

def label : Tag → String
  | block => "block"
  | literal => "literal"
  | list => "expression_list"
  | map => "expression_map"
  | call => "method_call"
  | var => "variable"
  | inclusion => "include"

def ofLabel? (text : String) : Option Tag := all.find? (·.label == text)

end Tag

namespace Kind

def tag : Kind → Tag
  | block _ => .block
  | literal _ => .literal
  | list _ => .list
  | map => .map
  | call .. => .call
  | var _ => .var
  | inclusion _ => .inclusion

def isContainer : Kind → Bool
  | block _ | map => true
  | _ => false

def isBlock : Kind → Bool
  | block _ => true
  | _ => false

def isVariable : Kind → Bool
  | var _ => true
  | _ => false

def blockKind? : Kind → Option BlockKind
  | block kind => some kind
  | _ => none

def value? : Kind → Option Value
  | literal v | var v => some v
  | _ => none

def withValue (v : Value) : Kind → Kind
  | literal _ => literal v
  | var _ => var v
  | kind => kind

def values : Kind → List Value
  | literal v | var v => [v]
  | list items => items
  | call _ arguments => arguments
  | block _ | map | inclusion _ => []

end Kind

/-- A reference from a node to a name, to be looked up from a scope outwards. -/
structure Dependency where
  origin : NodeId
  reference : String
  scope : NodeId
  deriving DecidableEq, Repr

/-- A declaration in a document. `holders` are the blocks that borrow it from an overlay, and
`pending` is a value that has been set and not been written yet. -/
structure Node where
  name : Name
  kind : Kind
  parent : Option NodeId
  source : Option SourceRange := none
  modified : Bool := false
  holders : List NodeId := []
  edges : List Dependency := []
  pending : Option Value := none
  deriving DecidableEq, Repr

namespace Node

def tag (n : Node) : Tag := n.kind.tag

def isContainer (n : Node) : Bool := n.kind.isContainer

def isBlock (n : Node) : Bool := n.kind.isBlock

def isVariable (n : Node) : Bool := n.kind.isVariable

def isCalled (n : Node) (text : String) : Bool := n.name.isCalled text

def isBacked (n : Node) : Bool := n.source.any SourceRange.isBacked

def isSettable (n : Node) : Bool := n.kind.value?.isSome

def value? (n : Node) : Option Value := n.pending <|> n.kind.value?

def values (n : Node) : List Value :=
  match n.pending with
  | some v => [v]
  | none => n.kind.values

def references (n : Node) : List String := n.values.flatMap Value.references

def commit (n : Node) : Node :=
  match n.pending with
  | some v => { n with kind := n.kind.withValue v, pending := none }
  | none => n

def markModified (n : Node) : Node := { n with modified := true }

def markWritten (n : Node) : Node := { n with modified := false }

end Node

/-- A tree of declarations that is not in a document yet. -/
structure Spec where
  name : Name
  kind : Kind
  children : List Spec := []
  source : Option SourceRange := none

namespace Spec

def literal (name : Name) (value : Value) : Spec := { name, kind := .literal value }

def isBacked (spec : Spec) : Bool := spec.source.any SourceRange.isBacked

end Spec

end BuildScript
