/-!
# Numerals

Unsigned numerals in the base that their first characters name: `0x` for sixteen, `0b` for two, `0o`
or a plain leading zero for eight, and ten otherwise. A single underscore may stand between two
digits, and between the mark of the base and a digit.
-/

namespace Datapath.Text

def digitValue? (c : Char) : Option Nat :=
  if '0' ≤ c ∧ c ≤ '9' then some (c.toNat - '0'.toNat)
  else if 'a' ≤ c ∧ c ≤ 'f' then some (c.toNat - 'a'.toNat + 10)
  else if 'A' ≤ c ∧ c ≤ 'F' then some (c.toNat - 'A'.toNat + 10)
  else none

def digitIn? (base : Nat) (c : Char) : Option Nat :=
  (digitValue? c).filter (· < base)

/-- Reads the digits that are left, each of which may follow one underscore. -/
def readDigits (base : Nat) : Nat → List Char → Option Nat
  | value, [] => some value
  | value, '_' :: c :: cs => do readDigits base (value * base + (← digitIn? base c)) cs
  | value, c :: cs => do readDigits base (value * base + (← digitIn? base c)) cs

def readNumeral : List Char → Option Nat
  | '0' :: 'x' :: cs | '0' :: 'X' :: cs => digits 16 cs
  | '0' :: 'b' :: cs | '0' :: 'B' :: cs => digits 2 cs
  | '0' :: 'o' :: cs | '0' :: 'O' :: cs => digits 8 cs
  | '0' :: cs => readDigits 8 0 cs
  | '_' :: _ => none
  | cs => digits 10 cs
where
  digits (base : Nat) (cs : List Char) : Option Nat :=
    if cs.isEmpty then none else readDigits base 0 cs

end Datapath.Text
