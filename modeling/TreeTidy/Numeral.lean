/-! Numerals: natural numbers written with decimal digits. -/
namespace TreeTidy.Numeral

def digitValue (c : Char) : Nat := c.toNat - '0'.toNat

/-- The number written by decimal digits. -/
def ofDigits (cs : List Char) : Nat :=
  cs.foldl (fun n c => 10 * n + digitValue c) 0

/-- The least number that does not fit in so many bits. -/
def bound (bits : Nat) : Nat := Nat.pow 2 bits

/-- The number that digits denote, of which there has to be one. -/
def read? (cs : List Char) : Option Nat :=
  if cs ≠ [] ∧ cs.all Char.isDigit then some (ofDigits cs) else none

/-- A number below a bound, perhaps after a plus sign. -/
def below? (bound : Nat) (text : String) : Option Nat :=
  let digits := match text.toList with
    | '+' :: cs => cs
    | cs => cs
  (read? digits).filter (· < bound)

end TreeTidy.Numeral
