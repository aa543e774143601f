import BuildScript.Json.Tagged

namespace BuildScript

inductive TemplatePart
  | text (text : String)
  | reference (name : String)
  deriving DecidableEq, Repr

inductive Value
  | string (text : String)
  | integer (value : Int64)
  | decimal (value : Binary64)
  | boolean (value : Bool)
  | reference (name : String)
  | template (parts : List TemplatePart)
  deriving DecidableEq, Repr

namespace TemplatePart

def reference? : TemplatePart → Option String
  | reference name => some name
  | text _ => none

def toJson : TemplatePart → Json
  | text s => .tagged "text" (.text s)
  | reference name => .tagged "reference" (.text name)

def tags : List String := ["text", "reference"]

def ofJson? (reading : Json.Reading) (j : Json) : Option TemplatePart := do
  match ← j.tagged? reading tags with
  | ⟨"text", content, _⟩ => content.text?.map text
  | ⟨"reference", content, _⟩ => content.text?.map reference
  | _ => none

end TemplatePart

namespace Value

def references : Value → List String
  | reference name => [name]
  | template parts => parts.filterMap TemplatePart.reference?
  | _ => []

/-- An infinity or a NaN has no decimal and is written as null. -/
def decimalToJson (x : Binary64) : Json :=
  match Numeral.ofBinary64? x with
  | some n => .number n
  | none => .null

def toJson : Value → Json
  | string s => .tagged "string" (.text s)
  | integer n => .tagged "integer" (.number (.integer n.toInt))
  | decimal x => .tagged "decimal" (decimalToJson x)
  | boolean b => .tagged "boolean" (.bool b)
  | reference name => .tagged "reference" (.text name)
  | template parts => .tagged "template" (.array (parts.map TemplatePart.toJson))

def int64? (j : Json) : Option Int64 := do
  let n ← j.integer?
  if Int64.minValue.toInt ≤ n ∧ n ≤ Int64.maxValue.toInt then some (Int64.ofInt n) else none

def tags : List String := ["string", "integer", "decimal", "boolean", "reference", "template"]

/-- The parts of a template that stands before its tag are set aside with it. `read` gives the
number for a numeral. -/
def ofJsonWith? (read : Numeral → Option Binary64) (j : Json) : Option Value := do
  match ← j.tagged? .inPlace tags with
  | ⟨"string", content, _⟩ => content.text?.map string
  | ⟨"integer", content, _⟩ => (int64? content).map integer
  | ⟨"decimal", content, _⟩ => (content.binary64? read).map decimal
  | ⟨"boolean", content, _⟩ => content.bool?.map boolean
  | ⟨"reference", content, _⟩ => content.text?.map reference
  | ⟨"template", content, reading⟩ => do
    some (template (← (← content.items?).mapM (TemplatePart.ofJson? reading)))
  | _ => none

def ofJson? (j : Json) : Option Value := ofJsonWith? Numeral.toBinary64? j

def toText (v : Value) : String := v.toJson.render

def ofTextWith? (read : Numeral → Option Binary64) (text : String) : Option Value :=
  Json.parse? text >>= ofJsonWith? read

def ofText? (text : String) : Option Value := ofTextWith? Numeral.toBinary64? text

end Value

end BuildScript
