import BuildScript.Number.Numeral

namespace BuildScript

/-- A JSON value as it is written: fields keep their order and may repeat. A string has no text
when one of its escapes names half of a surrogate pair. -/
inductive Json
  | null
  | bool (value : Bool)
  | number (value : Numeral)
  | string (text : Option String)
  | array (items : List Json)
  | object (fields : List (Option String × Json))
  deriving Inhabited

namespace Json

def text (s : String) : Json := string (some s)

def texts (l : List String) : Json := array (l.map text)

def natural (n : Nat) : Json := number (.integer n)

def record (fields : List (String × Json)) : Json := object (fields.map fun (k, v) ↦ (some k, v))

def text? : Json → Option String
  | string s => s
  | _ => none

def bool? : Json → Option Bool
  | bool b => some b
  | _ => none

def items? : Json → Option (List Json)
  | array items => some items
  | _ => none

def texts? (j : Json) : Option (List String) := do (← j.items?).mapM text?

def integer? : Json → Option Int
  | number (.integer n) => some n
  | _ => none

def binary64? (read : Numeral → Option Binary64) : Json → Option Binary64
  | number n => read n
  | _ => none

mutual

/-- Every string has a text, every number is in range, and at most `depth` arrays and objects
stand inside each other. -/
def isPlain (depth : Nat) : Json → Bool
  | null | bool _ => true
  | number n => n.toBinary64?.isSome
  | string s => s.isSome
  | array items =>
    match depth with
    | 0 => false
    | depth + 1 => arePlain depth items
  | object fields =>
    match depth with
    | 0 => false
    | depth + 1 => areFieldsPlain depth fields

def arePlain (depth : Nat) : List Json → Bool
  | [] => true
  | j :: rest => j.isPlain depth && arePlain depth rest

def areFieldsPlain (depth : Nat) : List (Option String × Json) → Bool
  | [] => true
  | (key, j) :: rest => key.isSome && j.isPlain depth && areFieldsPlain depth rest

end

end Json

end BuildScript
