import BuildScript.Number.Decimal

namespace BuildScript

structure Binary64 where
  bits : UInt64
  deriving DecidableEq, Repr

namespace Binary64

def isNegative (x : Binary64) : Bool := x.bits.toNat / Nat.pow 2 63 == 1

def exponentField (x : Binary64) : Nat := x.bits.toNat / Nat.pow 2 52 % Nat.pow 2 11

def fractionField (x : Binary64) : Nat := x.bits.toNat % Nat.pow 2 52

def isFinite (x : Binary64) : Bool := x.exponentField != 2047

/-- A finite number is its significand times two to its exponent, with a sign. -/
def significand (x : Binary64) : Nat :=
  if x.exponentField = 0 then x.fractionField else Nat.pow 2 52 + x.fractionField

def exponent (x : Binary64) : Int := if x.exponentField = 0 then -1074 else x.exponentField - 1075

def ofMagnitude (negative : Bool) (magnitude : Nat) : Binary64 :=
  ⟨UInt64.ofNat (magnitude + if negative then Nat.pow 2 63 else 0)⟩

/-- The natural number nearest to a fraction; a half goes to the even neighbour. -/
def roundDiv (num den : Nat) : Nat :=
  let q := num / den
  let r := num % den
  if 2 * r < den ∨ (2 * r = den ∧ q % 2 = 0) then q else q + 1

def inUnits (num den : Nat) (unit : Int) : Nat × Nat :=
  if 0 ≤ unit then (num, den * Nat.pow 2 unit.toNat) else (num * Nat.pow 2 (-unit).toNat, den)

/-- The power of two in which the significand of a positive fraction counts: 53 bits in front of
the point where the format allows that many. -/
def unitOf (num den : Nat) : Int :=
  let low := max ((num.log2 : Int) - den.log2 - 53) (-1074)
  let scaled := inUnits num den low
  if scaled.2 * Nat.pow 2 53 ≤ scaled.1 then low + 1 else low

/-- The number nearest to a positive fraction, `none` when it is out of range. -/
def ofRatio? (negative : Bool) (num den : Nat) : Option Binary64 :=
  let unit := unitOf num den
  let scaled := inUnits num den unit
  let magnitude := (unit + 1074).toNat * Nat.pow 2 52 + roundDiv scaled.1 scaled.2
  if magnitude < 2047 * Nat.pow 2 52 then some (ofMagnitude negative magnitude) else none

/-- The number nearest to a decimal, `none` when it is out of range. Exponents far outside the range
are settled by the count of digits, before any power is taken. -/
def ofDecimal? (negative : Bool) (d : Decimal) : Option Binary64 :=
  let leading : Int := d.length + d.exponent
  if d.digits = 0 ∨ leading < -330 then some (ofMagnitude negative 0)
  else if 310 < leading then none
  else if 0 ≤ d.exponent then ofRatio? negative (d.digits * Nat.pow 10 d.exponent.toNat) 1
  else ofRatio? negative d.digits (Nat.pow 10 (-d.exponent).toNat)

def toDecimal (x : Binary64) : Decimal :=
  if 0 ≤ x.exponent then ⟨x.significand * Nat.pow 2 x.exponent.toNat, 0⟩
  else ⟨x.significand * Nat.pow 5 (-x.exponent).toNat, x.exponent⟩

end Binary64

end BuildScript
