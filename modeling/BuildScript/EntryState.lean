namespace BuildScript

inductive EntryState
  | existing
  | toBeAdded
  | toBeRemoved
  | applied
  | hidden
  | moved
  deriving DecidableEq, Repr

namespace EntryState

def all : List EntryState := [existing, toBeAdded, toBeRemoved, applied, hidden, moved]

def label : EntryState → String
  | existing => "existing"
  | toBeAdded => "to_be_added"
  | toBeRemoved => "to_be_removed"
  | applied => "applied"
  | hidden => "hidden"
  | moved => "moved"

def ofLabel? (text : String) : Option EntryState := all.find? (·.label == text)

def isVisible : EntryState → Bool
  | toBeRemoved | hidden => false
  | _ => true

/-- Placeable entries have a place of their own in the block's text; an applied one is only
borrowed from an overlay. -/
def isPlaceable : EntryState → Bool
  | existing | toBeAdded | moved => true
  | _ => false

def isPending : EntryState → Bool
  | toBeAdded | toBeRemoved | moved => true
  | _ => false

theorem isVisible_of_isPlaceable {s : EntryState} (h : s.isPlaceable) : s.isVisible := by
  cases s <;> simp_all [isPlaceable, isVisible]

theorem ofLabel?_label (s : EntryState) : ofLabel? s.label = some s := by
  cases s <;> rfl

end EntryState

end BuildScript
