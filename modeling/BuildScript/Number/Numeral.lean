import BuildScript.Number.Shortest

namespace BuildScript

/-- A number as data interchange writes it: an integer, or a decimal with a sign. -/
inductive Numeral
  | integer (value : Int)
  | decimal (negative : Bool) (magnitude : Decimal)
  deriving DecidableEq, Repr

namespace Numeral

/-- The shortest decimal for a finite number; infinities and NaN have none. -/
def ofBinary64? (x : Binary64) : Option Numeral :=
  if x.isFinite then some (decimal x.isNegative x.shortest) else none

def toBinary64? : Numeral → Option Binary64
  | integer value => Binary64.ofDecimal? (value < 0) ⟨value.natAbs, 0⟩
  | decimal negative magnitude => Binary64.ofDecimal? negative magnitude

def sign (negative : Bool) : List Char := if negative then ['-'] else []

def zeros (n : Nat) : List Char := List.replicate n '0'

/-- Positional notation, always with a fraction; the point stands after `places` digits. -/
def positional (digits : List Char) (places : Int) : List Char :=
  if places ≤ 0 then ['0', '.'] ++ zeros (-places).toNat ++ digits
  else if digits.length ≤ places.toNat then
    digits ++ zeros (places.toNat - digits.length) ++ ['.', '0']
  else digits.take places.toNat ++ '.' :: digits.drop places.toNat

def scientific (digits : List Char) (power : Int) : List Char :=
  (match digits with
  | first :: second :: rest => first :: '.' :: second :: rest
  | digits => digits) ++
    'e' :: (if power < 0 then '-' else '+') :: Nat.toDigits 10 power.natAbs

/-- A decimal is written positionally while its first digit stands for `10 ^ -5` or more and for
less than `10 ^ 16`. -/
def toChars : Numeral → List Char
  | integer value => sign (value < 0) ++ Nat.toDigits 10 value.natAbs
  | decimal negative magnitude =>
    let chars := Nat.toDigits 10 magnitude.digits
    let power := magnitude.exponent + chars.length - 1
    sign negative ++
      if -5 ≤ power ∧ power < 16 then positional chars (power + 1) else scientific chars power

end Numeral

end BuildScript
