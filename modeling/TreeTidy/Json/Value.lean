import TreeTidy.Numeral
/-!
JSON values as they are written. A number keeps its digits. A string with an escape that is half of
a surrogate pair has no text: a reader may skip it, but not read it. A number with digits only denotes
a natural number; any other is a decimal `significand · 10 ^ exponent`, which is out of range when no
finite binary64 value is nearest to it.
-/
namespace TreeTidy

inductive Json
  | null
  | bool (value : Bool)
  | num (digits : String)
  | str (text : Option String)
  | arr (items : List Json)
  | obj (fields : List (Option String × Json))
  deriving Repr, Inhabited

namespace Json

def text (s : String) : Json := str (some s)

def nat (n : Nat) : Json := num (toString n)

/-- An object with the given fields, in this order. -/
def record (fields : List (String × Json)) : Json :=
  obj (fields.map fun (k, v) => (some k, v))

def texts (ss : List String) : Json := arr (ss.map text)

def nats (ns : List Nat) : Json := arr (ns.map nat)

def ofOption {α : Type} (f : α → Json) : Option α → Json
  | none => null
  | some a => f a

/-- The first field of that name. -/
def field? (name : String) : Json → Option Json
  | obj fields => (fields.find? (·.1 == some name)).map (·.2)
  | _ => none

/-- The deepest nesting of objects and arrays. -/
def depth : Json → Nat
  | arr items => depthItems items + 1
  | obj fields => depthFields fields + 1
  | _ => 0
where
  depthItems : List Json → Nat
    | [] => 0
    | v :: vs => max (depth v) (depthItems vs)
  depthFields : List (Option String × Json) → Nat
    | [] => 0
    | (_, v) :: vs => max (depth v) (depthFields vs)

end Json

namespace Json.Number

/-- The number that a text of digits denotes. -/
def nat? (text : String) : Option Nat := Numeral.read? text.toList

/-- Significand and exponent of a number text. -/
def parts (text : String) : Nat × Int :=
  let cs := text.toList.filter (· ≠ '-')
  let whole := cs.takeWhile Char.isDigit
  let rest := cs.dropWhile Char.isDigit
  let fraction := match rest with
    | '.' :: r => r.takeWhile Char.isDigit
    | _ => []
  let negative := ((text.toList.dropWhile (fun c => c ≠ 'e' ∧ c ≠ 'E')).drop 1).head? = some '-'
  let power := Numeral.ofDigits (((cs.dropWhile (fun c => c ≠ 'e' ∧ c ≠ 'E')).drop 1).filter Char.isDigit)
  (Numeral.ofDigits (whole ++ fraction),
    (if negative then -(power : Int) else power) - fraction.length)

/-- The least magnitude that no finite binary64 value is nearest to. -/
def ceiling : Nat := Numeral.bound 1024 - Numeral.bound 970

/-- Whether the number is too large for a binary64 value. Far from the ceiling the count of digits
decides. -/
def outOfRange (text : String) : Bool :=
  let (significand, exponent) := parts text
  if significand = 0 then false
  else
    let magnitude : Int := (Nat.toDigits 10 significand).length + exponent
    if magnitude > 310 then true
    else if magnitude < 300 then false
    else if 0 ≤ exponent then decide (ceiling ≤ significand * Nat.pow 10 exponent.toNat)
    else decide (ceiling * Nat.pow 10 (-exponent).toNat ≤ significand)

end Json.Number

end TreeTidy
