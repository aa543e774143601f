import BuildScript.Number.Binary64

namespace BuildScript.Binary64

def isReadFrom (x : Binary64) (d : Decimal) : Bool := ofDecimal? x.isNegative d == some x

/-- The two neighbours of a decimal that have `drop` digits fewer, the nearer one first. Of two
that are equally near the even one is first. -/
def neighbours (d : Decimal) (drop : Nat) : List Decimal :=
  let unit := Nat.pow 10 drop
  let low := d.digits / unit
  let rest := d.digits % unit
  let scaled (n : Nat) : Decimal := Decimal.strip ⟨n, d.exponent + drop⟩
  if 2 * rest < unit ∨ (2 * rest = unit ∧ low % 2 = 0) then [scaled low, scaled (low + 1)]
  else [scaled (low + 1), scaled low]

/-- Drop as many digits as possible, at most `drop`, such that the decimal still reads back as
`x`. -/
def shorten (x : Binary64) (d : Decimal) : Nat → Decimal
  | 0 => d.strip
  | drop + 1 =>
    match (neighbours d (drop + 1)).find? x.isReadFrom with
    | some found => found
    | none => shorten x d drop

/-- The magnitude of a finite number with the fewest digits that read back, and the nearest of
those. -/
def shortest (x : Binary64) : Decimal := x.shorten x.toDecimal (x.toDecimal.length - 1)

end BuildScript.Binary64
