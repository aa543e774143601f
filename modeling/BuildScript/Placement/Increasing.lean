namespace BuildScript.Placement

/-- The first index in `[low, high)` at which `p` fails, or `high`, where `p` holds up to some
point and fails from there on. -/
def bisect (p : Nat → Bool) (low high : Nat) : Nat :=
  if low < high then
    let middle := (low + high) / 2
    if p middle then bisect p (middle + 1) high else bisect p low middle
  else low
termination_by high - low

/-- `tails` has at each length the index of the smallest end of an increasing subsequence of that
length, and `links` leads from an index to the one before it in a longest such sequence. -/
structure Piles where
  tails : Array Nat := #[]
  links : Array (Option Nat) := #[]

def Piles.deal (value : Nat → Nat) (piles : Piles) (index : Nat) : Piles :=
  let pile := bisect (fun k ↦ value (piles.tails.getD k 0) < value index) 0 piles.tails.size
  { tails :=
      if pile = piles.tails.size then piles.tails.push index
      else piles.tails.setIfInBounds pile index
    links := piles.links.push (if pile = 0 then none else piles.tails[pile - 1]?) }

def Piles.trace (piles : Piles) : Nat → Option Nat → List Nat
  | 0, _ | _, none => []
  | fuel + 1, some index => index :: piles.trace fuel piles.links[index]?.join

/-- The indices of one longest strictly increasing subsequence. -/
def longestIncreasing (values : List Nat) : List Nat :=
  let value (i : Nat) : Nat := values.getD i 0
  let piles := (List.range values.length).foldl (Piles.deal value) {}
  (piles.trace values.length piles.tails.back?).reverse

end BuildScript.Placement
