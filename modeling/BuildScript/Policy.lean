import BuildScript.Json.Reader
import BuildScript.Json.Writer
import BuildScript.Node

namespace BuildScript

structure Dictionary (α : Type) where
  entries : List (String × α) := []
  nodup : (entries.map Prod.fst).Nodup := by simp

namespace Dictionary

variable {α : Type}

instance : Inhabited (Dictionary α) := ⟨{}⟩

instance [DecidableEq α] : DecidableEq (Dictionary α) := fun a b ↦
  decidable_of_iff (a.entries = b.entries) <| by cases a; cases b; simp

def get? (d : Dictionary α) (key : String) : Option α := d.entries.lookup key

def put (key : String) (a : α) : List (String × α) → List (String × α)
  | [] => [(key, a)]
  | (k, b) :: rest => if k = key then (key, a) :: rest else (k, b) :: put key a rest

theorem mem_keys_put {key : String} {a : α} {l : List (String × α)} {k : String} :
    k ∈ (put key a l).map Prod.fst ↔ k = key ∨ k ∈ l.map Prod.fst := by
  induction l with
  | nil => simp [put]
  | cons e rest ih =>
    obtain ⟨k', b⟩ := e
    by_cases h : k' = key
    · subst h; simp [put]
    · simp only [put, h, if_false, List.map_cons, List.mem_cons, ih]; grind

theorem nodup_keys_put {key : String} {a : α} {l : List (String × α)}
    (h : (l.map Prod.fst).Nodup) : ((put key a l).map Prod.fst).Nodup := by
  induction l with
  | nil => simp [put]
  | cons e rest ih =>
    obtain ⟨k, b⟩ := e
    simp only [List.map_cons, List.nodup_cons] at h
    by_cases hk : k = key
    · subst hk; simp only [put, if_true, List.map_cons, List.nodup_cons]; exact h
    · simp only [put, hk, if_false, List.map_cons, List.nodup_cons, mem_keys_put]
      exact ⟨by grind, ih h.2⟩

def insert (d : Dictionary α) (key : String) (a : α) : Dictionary α :=
  ⟨put key a d.entries, nodup_keys_put d.nodup⟩

def ofList (l : List (String × α)) : Dictionary α :=
  l.foldl (fun d e ↦ d.insert e.1 e.2) {}

def toJson (f : α → Json) (d : Dictionary α) : Json :=
  .record (d.entries.map fun (key, a) ↦ (key, f a))

def ofJson? (f : Json → Option α) : Json → Option (Dictionary α)
  | .object fields => do
    let entries ← fields.mapM fun (key, j) ↦ do some (← key, ← f j)
    some (ofList entries)
  | _ => none

end Dictionary

/-- What a document asks from outside: the groups of names in which a block of some kind is
ordered, and the kind of a block by its name and the kind of the block around it. -/
structure Config where
  orderFor : BlockKind → List (List String) := fun _ ↦ []
  kindOf : String → BlockKind → Option BlockKind := fun _ _ ↦ none

structure PolicyTable where
  canonicalOrder : Dictionary (List (List String)) := {}
  blockKinds : Dictionary (Dictionary BlockKind) := {}
  deriving DecidableEq

namespace PolicyTable

/-- Names of one group are not ordered among each other; a kind without groups has no order. -/
def orderFor (t : PolicyTable) (kind : BlockKind) : List (List String) :=
  (t.canonicalOrder.get? kind).getD []

def kindOf (t : PolicyTable) (name : String) (enclosing : BlockKind) : Option BlockKind := do
  (← t.blockKinds.get? enclosing).get? name

def withOrder (t : PolicyTable) (kind : BlockKind) (groups : List (List String)) : PolicyTable :=
  { t with canonicalOrder := t.canonicalOrder.insert kind groups }

def withBlockKind (t : PolicyTable) (enclosing : BlockKind) (name : String) (kind : BlockKind) :
    PolicyTable :=
  let kinds := (t.blockKinds.get? enclosing).getD {}
  { t with blockKinds := t.blockKinds.insert enclosing (kinds.insert name kind) }

def orderToJson (d : Dictionary (List (List String))) : Json :=
  d.toJson fun groups ↦ .array (groups.map Json.texts)

def kindsToJson (d : Dictionary (Dictionary BlockKind)) : Json :=
  d.toJson fun kinds ↦ kinds.toJson Json.text

def orderOfJson? : Json → Option (Dictionary (List (List String))) :=
  Dictionary.ofJson? fun groups ↦ do (← groups.items?).mapM Json.texts?

def kindsOfJson? : Json → Option (Dictionary (Dictionary BlockKind)) :=
  Dictionary.ofJson? (Dictionary.ofJson? Json.text?)

def toJson (t : PolicyTable) : Json :=
  .record
    [("canonical_order", orderToJson t.canonicalOrder), ("block_kinds", kindsToJson t.blockKinds)]

/-- The field of this name, read by `f`: absent it is empty, and it may not stand twice. -/
def field? {α : Type} (f : Json → Option (Dictionary α)) (name : String)
    (fields : List (Option String × Json)) : Option (Dictionary α) :=
  match fields.filter (·.1 == some name) with
  | [] => some {}
  | [(_, j)] => f j
  | _ => none

/-- Read a table from an object, where other fields are passed over, or from an array with up to
two elements. -/
def ofJson? : Json → Option PolicyTable
  | .object fields =>
    if fields.all fun field ↦ field.1.isSome then do
      let canonicalOrder ← field? orderOfJson? "canonical_order" fields
      let blockKinds ← field? kindsOfJson? "block_kinds" fields
      some { canonicalOrder, blockKinds }
    else none
  | .array [] => some {}
  | .array [order] => do some { canonicalOrder := ← orderOfJson? order }
  | .array [order, kinds] => do
    some { canonicalOrder := ← orderOfJson? order, blockKinds := ← kindsOfJson? kinds }
  | _ => none

def toText (t : PolicyTable) : String := t.toJson.render

def ofText? (text : String) : Option PolicyTable := Json.parse? text >>= ofJson?

end PolicyTable

namespace Config

def ofTables (order kinds : PolicyTable) : Config :=
  { orderFor := order.orderFor, kindOf := kinds.kindOf }

def ofTable (t : PolicyTable) : Config := ofTables t t

end Config

end BuildScript
