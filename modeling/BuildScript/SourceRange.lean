namespace BuildScript

/-- A stretch of source text that a node stands for, until it is detached. -/
structure SourceRange where
  start : Nat
  stop : Nat
  attached : Bool := true
  deriving DecidableEq, Repr

namespace SourceRange

def isBacked (range : SourceRange) : Bool := range.attached && range.start < range.stop

def detach (range : SourceRange) : SourceRange := { range with attached := false }

def describe (range : SourceRange) : String :=
  "SourceRange \x7b start: " ++ toString range.start ++ ", end: " ++ toString range.stop ++
    ", attached: " ++ (if range.attached then "true" else "false") ++ " \x7d"

@[simp]
theorem isBacked_detach (range : SourceRange) : range.detach.isBacked = false := rfl

end SourceRange

end BuildScript
