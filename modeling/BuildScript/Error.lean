import BuildScript.Node

namespace BuildScript

inductive FaultKind
  | notFound
  | structuralViolation
  | overlayImmutable
  | invalidInput
  | invalidConfig
  | placementConflict
  | writerFailure
  | serialization
  | internal
  deriving DecidableEq, Repr

namespace FaultKind

def all : List FaultKind :=
  [notFound, structuralViolation, overlayImmutable, invalidInput, invalidConfig, placementConflict,
    writerFailure, serialization, internal]

def label : FaultKind → String
  | notFound => "NotFound"
  | structuralViolation => "StructuralViolation"
  | overlayImmutable => "OverlayImmutable"
  | invalidInput => "InvalidInput"
  | invalidConfig => "InvalidConfig"
  | placementConflict => "PlacementConflict"
  | writerFailure => "WriterFailure"
  | serialization => "Serialization"
  | internal => "Internal"

def ofLabel? (text : String) : Option FaultKind := all.find? (·.label == text)

def code : FaultKind → String
  | notFound => "ERR_NOT_FOUND"
  | structuralViolation => "ERR_STRUCTURAL_VIOLATION"
  | overlayImmutable => "ERR_OVERLAY_IMMUTABLE"
  | invalidInput => "ERR_INVALID_INPUT"
  | invalidConfig => "ERR_INVALID_CONFIG"
  | placementConflict => "ERR_PLACEMENT_CONFLICT"
  | writerFailure => "ERR_WRITER_FAILURE"
  | serialization => "ERR_SERIALIZATION"
  | internal => "ERR_INTERNAL"

def isStructural : FaultKind → Bool
  | notFound | structuralViolation | overlayImmutable => true
  | _ => false

end FaultKind

/-- A problem in the form in which it is reported, with the problem behind it. -/
structure Fault where
  kind : FaultKind
  op : Option String := none
  node : Option String := none
  block : Option String := none
  message : String := ""
  cause : Option Fault := none

/-- The code, then the operation, the message, the node and the block as far as they are known. -/
def Fault.describe (f : Fault) : String :=
  let part (before : String) (text : Option String) (after : String) : String :=
    match text with
    | some text => before ++ text ++ after
    | none => ""
  "[" ++ f.kind.code ++ "]" ++ part " in operation '" f.op "'" ++
    (if f.message.isEmpty then "" else ": " ++ f.message) ++
    part " (node: " f.node ")" ++ part " (block: " f.block ")"

inductive ModelError
  | nodeNotFound (node : NodeId)
  | notAContainer (node : NodeId)
  | notInStore (block node : NodeId)
  | wrongParent (block node : NodeId)
  | overlayImmutable (block node : NodeId)
  | notMovable (node : NodeId) (state : EntryState)
  | notSettable (node : NodeId)
  | invalidConfig (reason : String)
  | serialization (reason : String)
  deriving DecidableEq, Repr

namespace ModelError

def label : ModelError → String
  | nodeNotFound .. => "NodeNotFound"
  | notAContainer .. => "NotAContainer"
  | notInStore .. => "NotInStore"
  | wrongParent .. => "WrongParent"
  | overlayImmutable .. => "OverlayImmutable"
  | notMovable .. => "NotMovable"
  | notSettable .. => "NotSettable"
  | invalidConfig .. => "InvalidConfig"
  | serialization .. => "Serialization"

def message : ModelError → String
  | nodeNotFound node => "Node not found: " ++ node.label
  | notAContainer node => "Node is not a container: " ++ node.label
  | notInStore block node =>
    "Node " ++ node.label ++ " is not in the store of block " ++ block.label
  | wrongParent block node => "Node " ++ node.label ++ " is not owned by block " ++ block.label
  | overlayImmutable block node =>
    "Node " ++ node.label ++ " is an overlay entry of block " ++ block.label ++
      " and cannot be edited"
  | notMovable node state => "Node " ++ node.label ++ " cannot be moved while " ++ state.label
  | notSettable node => "Node " ++ node.label ++ " does not hold a settable value"
  | invalidConfig reason => "Invalid configuration: " ++ reason
  | serialization reason => "Serialization error: " ++ reason

def toFault : ModelError → Fault
  | nodeNotFound node =>
    { kind := .notFound, node := some node.label, message := "Node not found" }
  | notAContainer node =>
    { kind := .structuralViolation, node := some node.label, message := "Node is not a container" }
  | notInStore block node =>
    { kind := .structuralViolation, node := some node.label, block := some block.label
      message := "Node is not in the store of this block" }
  | wrongParent block node =>
    { kind := .structuralViolation, node := some node.label, block := some block.label
      message := "Node is owned by a different block" }
  | overlayImmutable block node =>
    { kind := .overlayImmutable, node := some node.label, block := some block.label
      message := "Overlay entries are read-only" }
  | notMovable node state =>
    { kind := .structuralViolation, node := some node.label
      message := "Cannot move an entry in state " ++ state.label }
  | notSettable node =>
    { kind := .invalidInput, node := some node.label
      message := "Node does not hold a settable value" }
  | invalidConfig reason => { kind := .invalidConfig, message := reason }
  | serialization reason => { kind := .serialization, message := reason }

end ModelError

inductive DiagnosticKind
  | placementConflict
  deriving DecidableEq, Repr

/-- A condition that a document recovers from on its own and keeps on record. -/
structure Diagnostic where
  kind : DiagnosticKind
  block : NodeId
  node : NodeId
  message : String
  deriving DecidableEq, Repr

namespace Diagnostic

def label : DiagnosticKind → String
  | .placementConflict => "placement_conflict"

def toFault (d : Diagnostic) : Fault :=
  let kind : FaultKind :=
    match d.kind with
    | .placementConflict => .placementConflict
  { kind, node := some d.node.label, block := some d.block.label, message := d.message }

end Diagnostic

end BuildScript
