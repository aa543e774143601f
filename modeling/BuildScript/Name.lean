namespace BuildScript

/-- A dotted name such as `android.defaultConfig.minSdk`, by its segments. -/
structure Name where
  parts : List String
  deriving DecidableEq, Repr, Inhabited

namespace Name

def empty : Name := ⟨[]⟩

def parse (text : String) : Name :=
  ⟨((text.toList.splitOnP (· == '.')).filter (!·.isEmpty)).map String.ofList⟩

def full (name : Name) : String := ".".intercalate name.parts

def last (name : Name) : String := name.parts.getLast?.getD ""

def qualifier (name : Name) : List String := name.parts.dropLast

def isEmpty (name : Name) : Bool := name.parts.isEmpty

def isCalled (name : Name) (text : String) : Bool := name.full == text

end Name

end BuildScript
