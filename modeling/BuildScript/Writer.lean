import BuildScript.Error

namespace BuildScript

inductive Step
  | delete
  | create
  | flush
  | relocate
  deriving DecidableEq, Repr

namespace Step

def all : List Step := [delete, create, flush, relocate]

def label : Step → String
  | delete => "delete"
  | create => "create"
  | flush => "flush"
  | relocate => "relocate"

def title : Step → String
  | delete => "Delete"
  | create => "Create"
  | flush => "Flush"
  | relocate => "Relocate"

def ofLabel? (text : String) : Option Step := all.find? (·.label == text)

end Step

structure Target where
  id : NodeId
  node : Node
  block : NodeId
  anchor : Option NodeId

structure Call where
  step : Step
  target : Target
  newIndex : Option Nat := none

namespace Call

def name (c : Call) : String := c.target.node.name.full

end Call

/-- The owner of the source text, with a state of its own. For each call it says whether it
refuses, and with what message; for a creation also where the text now stands. -/
structure Writer (σ : Type) where
  refusal? : σ → Call → Option String
  range : σ → Call → SourceRange
  next : σ → Call → σ

namespace Writer

variable {σ : Type}

def constant (range : SourceRange) : Writer Unit where
  refusal? _ _ := none
  range _ _ := range
  next _ _ := ()

def noop : Writer Unit := constant ⟨0, 1, true⟩

/-- Refuses some steps on some names; creations are laid out one after the other, sixteen
characters each. The state is the next free offset. -/
def refusing (refused : List (Step × String)) : Writer Nat where
  refusal? _ call :=
    if (call.step, call.name) ∈ refused then
      some (call.step.title ++ " refused for " ++ call.name)
    else none
  range offset _ := ⟨offset, offset + 16, true⟩
  next offset call :=
    if call.step = .create ∧ (call.step, call.name) ∉ refused then offset + 16 else offset

def recorded (w : Writer σ) : Writer (σ × List Call) where
  refusal? s := w.refusal? s.1
  range s := w.range s.1
  next s call := (w.next s.1 call, s.2 ++ [call])

end Writer

structure Failure where
  node : NodeId
  name : String
  step : Step
  message : String
  deriving DecidableEq, Repr

def Failure.toFault (f : Failure) : Fault :=
  { kind := .writerFailure, op := some ("apply:" ++ f.step.label), node := some f.node.label
    message := f.message }

structure Report where
  deleted : List NodeId := []
  created : List NodeId := []
  flushed : List NodeId := []
  relocated : List NodeId := []
  failures : List Failure := []
  deriving DecidableEq, Repr

namespace Report

def isClean (r : Report) : Bool := r.failures.isEmpty

def isNoop (r : Report) : Bool :=
  r.deleted.isEmpty && r.created.isEmpty && r.flushed.isEmpty && r.relocated.isEmpty &&
    r.failures.isEmpty

def failedNodes (r : Report) : List NodeId := r.failures.map (·.node)

end Report

end BuildScript
