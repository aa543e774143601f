import BuildScript.Json.Basic

namespace BuildScript.Json

def hexDigit (n : Nat) : Char := (Nat.toDigits 16 n).headD '0'

def escape (c : Char) : List Char :=
  match c with
  | '"' => ['\\', '"']
  | '\\' => ['\\', '\\']
  | '\x08' => ['\\', 'b']
  | '\x0c' => ['\\', 'f']
  | '\n' => ['\\', 'n']
  | '\r' => ['\\', 'r']
  | '\t' => ['\\', 't']
  | c =>
    if c.toNat < 32 then ['\\', 'u', '0', '0', hexDigit (c.toNat / 16), hexDigit (c.toNat % 16)]
    else [c]

/-- A string without text is written as the escape that makes it one. -/
def quote : Option String → List Char
  | some s => '"' :: s.toList.flatMap escape ++ ['"']
  | none => ['"', '\\', 'u', 'd', '8', '0', '0', '"']

mutual

def toChars : Json → List Char
  | null => ['n', 'u', 'l', 'l']
  | bool true => ['t', 'r', 'u', 'e']
  | bool false => ['f', 'a', 'l', 's', 'e']
  | number n => n.toChars
  | string s => quote s
  | array items => '[' :: itemsToChars items ++ [']']
  | object fields => '\x7b' :: fieldsToChars fields ++ ['\x7d']

def itemsToChars : List Json → List Char
  | [] => []
  | [j] => j.toChars
  | j :: rest => j.toChars ++ ',' :: itemsToChars rest

def fieldsToChars : List (Option String × Json) → List Char
  | [] => []
  | [(key, j)] => quote key ++ ':' :: j.toChars
  | (key, j) :: rest => quote key ++ ':' :: j.toChars ++ ',' :: fieldsToChars rest

end

def render (j : Json) : String := String.ofList j.toChars

end BuildScript.Json
