import BuildScript.Json.Reader
import BuildScript.Json.Writer

namespace BuildScript.Json

/-- How deep arrays and objects may stand inside a content that is set aside until its tag is
known. -/
def contentDepth : Nat := 126

/-- How a value is read: in place, or after it has been set aside because it stood before its
tag. -/
inductive Reading
  | inPlace
  | setAside
  deriving DecidableEq, Repr

structure Tagged where
  tag : String
  content : Json
  reading : Reading

def tagged (tag : String) (content : Json) : Json := record [("type", text tag), ("value", content)]

/-- The tag in a field is a string, or an object with the tag as its only key and null below it.
In what was set aside an empty object stands for null as well. -/
def fieldTag? (reading : Reading) : Json → Option String
  | string s => s
  | object [(key, null)] => key
  | object [(key, object [])] => if reading = .setAside then key else none
  | _ => none

/-- The tag in a pair is a string. In what was set aside it may be a place in `tags` as well. -/
def pairTag? (reading : Reading) (tags : List String) (j : Json) : Option String :=
  match reading with
  | .inPlace => j.text?
  | .setAside => j.text? <|> do tags[← (← j.integer?).toNat?]?

/-- Read a tagged value, also from the pair `[tag,content]`. The fields come in either order, each
exactly once, and other fields are passed over. A content that stands before its tag has to be
plain and is set aside; any other is read as the value itself is. -/
def tagged? (reading : Reading) (tags : List String) : Json → Option Tagged
  | array [tag, content] => do some ⟨← tag.pairTag? reading tags, content, reading⟩
  | object fields =>
    if fields.all fun field ↦ field.1.isSome then
      match fields.filter fun field ↦ field.1 == some "type" || field.1 == some "value" with
      | [(some "type", tag), (some "value", content)] => do
        some ⟨← tag.fieldTag? reading, content, reading⟩
      | [(some "value", content), (some "type", tag)] =>
        if content.isPlain contentDepth then do
          some ⟨← tag.fieldTag? reading, content, .setAside⟩
        else none
      | _ => none
    else none
  | _ => none

end BuildScript.Json
