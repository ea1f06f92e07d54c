import TreeTidy.Json.Value
/-!
Reading JSON text. A text that no longer text could mend is malformed; one that stops before the
value is complete is cut short.
-/
namespace TreeTidy.Json

/-- Why a text gives no value of the wanted type. -/
inductive Refusal
  /-- The text ends before the value does. -/
  | cutShort
  /-- The text is not JSON, or nests too deeply. -/
  | malformed
  /-- The value is JSON but does not fit the type. -/
  | unsuited
  deriving DecidableEq, Repr, Inhabited

/-- Why a text gives no value, in words. -/
def Refusal.text : Refusal → String
  | .cutShort => "the text ends too early"
  | .malformed => "the text is not JSON, or nests too deeply"
  | .unsuited => "a value does not fit"

def isBlank (c : Char) : Bool := c == ' ' || c == '\n' || c == '\t' || c == '\r'

def skipBlank (cs : List Char) : List Char := cs.dropWhile isBlank

/-- The value of a hexadecimal digit. -/
def hexValue? (c : Char) : Option Nat :=
  if c.isDigit then some (c.toNat - '0'.toNat)
  else if 'a' ≤ c ∧ c ≤ 'f' then some (c.toNat - 'a'.toNat + 10)
  else if 'A' ≤ c ∧ c ≤ 'F' then some (c.toNat - 'A'.toNat + 10)
  else none

/-- The code unit written by four hexadecimal digits. -/
def unit? (a b c d : Char) : Option Nat := do
  let a ← hexValue? a
  let b ← hexValue? b
  let c ← hexValue? c
  let d ← hexValue? d
  pure (((a * 16 + b) * 16 + c) * 16 + d)

def isHighSurrogate (u : Nat) : Bool := decide (0xD800 ≤ u) && decide (u < 0xDC00)

def isLowSurrogate (u : Nat) : Bool := decide (0xDC00 ≤ u) && decide (u < 0xE000)

def joinSurrogates (high low : Nat) : Char :=
  Char.ofNat (0x10000 + (high - 0xD800) * 0x400 + (low - 0xDC00))

/-- The character of a one-letter escape. -/
def escapeChar? : Char → Option Char
  | '"' => some '"'
  | '\\' => some '\\'
  | '/' => some '/'
  | 'b' => some '\x08'
  | 'f' => some '\x0c'
  | 'n' => some '\n'
  | 'r' => some '\r'
  | 't' => some '\t'
  | _ => none

/-- What a text that has no four characters after `\u` is refused for: the four bytes of the digits
are missing, or they are there and are no digits. -/
def shortUnit (rest : List Char) : Refusal :=
  if (String.ofList rest).utf8ByteSize < 4 then .cutShort else .malformed

/-- What the four digits after `\u` stand for, and how many characters belong to it: a surrogate pair
takes a second escape, half of one stands for no character. -/
def unicodeEscape : List Char → Except Refusal (Option Char × Nat)
  | a :: b :: c :: d :: rest =>
    match unit? a b c d with
    | none => .error .malformed
    | some u =>
      if isHighSurrogate u then
        match rest with
        | '\\' :: 'u' :: e :: f :: g :: h :: _ =>
          match unit? e f g h with
          | none => .error .malformed
          | some v => if isLowSurrogate v then .ok (some (joinSurrogates u v), 10) else .ok (none, 4)
        | _ => .ok (none, 4)
      else if isLowSurrogate u then .ok (none, 4)
      else .ok (some (Char.ofNat u), 4)
  | rest => .error (shortUnit rest)

/-- What the characters after a backslash stand for, and how many of them belong to it. -/
def escape : List Char → Except Refusal (Option Char × Nat)
  | [] => .error .cutShort
  | c :: rest =>
    if c = 'u' then (unicodeEscape rest).map fun (e, n) => (e, n + 1)
    else match escapeChar? c with
      | some e => .ok (some e, 1)
      | none => .error .malformed

/-- The rest of a string after its opening quote. `read` holds what was read, last character first;
`whole` turns false at an escape that stands for no character. -/
def stringFrom (read : List Char) (whole : Bool) (cs : List Char) :
    Except Refusal (Option String × List Char) :=
  match cs with
  | [] => .error .cutShort
  | c :: rest =>
    if c = '"' then .ok (if whole then some (String.ofList read.reverse) else none, rest)
    else if c = '\\' then
      match escape rest with
      | .error e => .error e
      | .ok (some e, n) => stringFrom (e :: read) whole (rest.drop n)
      | .ok (none, n) => stringFrom read false (rest.drop n)
    else if c.toNat < 32 then .error .malformed
    else stringFrom (c :: read) whole rest
  termination_by cs.length
  decreasing_by all_goals (simp only [List.length_drop, List.length_cons]; omega)

/-- The digits at the front, of which there has to be one. -/
def digits (cs : List Char) : Except Refusal (List Char × List Char) :=
  match cs with
  | [] => .error .cutShort
  | c :: _ =>
    if c.isDigit then .ok (cs.takeWhile Char.isDigit, cs.dropWhile Char.isDigit)
    else .error .malformed

/-- The digits before the point: a zero stands alone. -/
def wholePart (cs : List Char) : Except Refusal (List Char × List Char) := do
  let (ds, rest) ← digits cs
  if ds.head? = some '0' ∧ ds ≠ ['0'] then .error .malformed else pure (ds, rest)

def fractionPart (cs : List Char) : Except Refusal (List Char × List Char) :=
  match cs with
  | '.' :: rest => do
    let (ds, rest) ← digits rest
    pure ('.' :: ds, rest)
  | _ => .ok ([], cs)

def exponentSign (cs : List Char) : List Char × List Char :=
  match cs with
  | '+' :: rest => (['+'], rest)
  | '-' :: rest => (['-'], rest)
  | _ => ([], cs)

def exponentPart (cs : List Char) : Except Refusal (List Char × List Char) :=
  match cs with
  | [] => .ok ([], [])
  | c :: rest =>
    if c = 'e' ∨ c = 'E' then do
      let (sign, rest) := exponentSign rest
      let (ds, rest) ← digits rest
      pure (c :: sign ++ ds, rest)
    else .ok ([], cs)

/-- A number, from the digits after its sign. -/
def numberFrom (sign cs : List Char) : Except Refusal (Json × List Char) := do
  let (whole, cs) ← wholePart cs
  let (fraction, cs) ← fractionPart cs
  let (exponent, cs) ← exponentPart cs
  pure (.num (String.ofList (sign ++ whole ++ fraction ++ exponent)), cs)

/-- The rest of a word such as `null` after its first letter. -/
def wordFrom (value : Json) : (rest : List Char) → List Char → Except Refusal (Json × List Char)
  | [], cs => .ok (value, cs)
  | _ :: _, [] => .error .cutShort
  | w :: ws, c :: cs => if w = c then wordFrom value ws cs else .error .malformed

mutual

/-- A value and what follows it. Every step takes at least one character, so fuel beyond the number
of characters is never used up. -/
def valueFrom : Nat → List Char → Except Refusal (Json × List Char)
  | 0, _ => .error .malformed
  | fuel + 1, cs =>
    match skipBlank cs with
    | [] => .error .cutShort
    | '[' :: rest =>
      match skipBlank rest with
      | [] => .error .cutShort
      | ']' :: rest => .ok (.arr [], rest)
      | rest => itemsFrom fuel [] rest
    | '\x7b' :: rest =>
      match skipBlank rest with
      | [] => .error .cutShort
      | '\x7d' :: rest => .ok (.obj [], rest)
      | rest => fieldsFrom fuel [] rest
    | '"' :: rest => do
      let (s, rest) ← stringFrom [] true rest
      pure (.str s, rest)
    | 'n' :: rest => wordFrom .null "ull".toList rest
    | 't' :: rest => wordFrom (.bool true) "rue".toList rest
    | 'f' :: rest => wordFrom (.bool false) "alse".toList rest
    | '-' :: rest => numberFrom ['-'] rest
    | c :: rest => if c.isDigit then numberFrom [] (c :: rest) else .error .malformed

/-- The items of an array from the one that starts here; `read` holds those before, last first. -/
def itemsFrom : Nat → List Json → List Char → Except Refusal (Json × List Char)
  | 0, _, _ => .error .malformed
  | fuel + 1, read, cs =>
    match valueFrom fuel cs with
    | .error e => .error e
    | .ok (v, rest) =>
      match skipBlank rest with
      | [] => .error .cutShort
      | ']' :: rest => .ok (.arr (v :: read).reverse, rest)
      | ',' :: rest =>
        match skipBlank rest with
        | [] => .error .cutShort
        | ']' :: _ => .error .malformed
        | rest => itemsFrom fuel (v :: read) rest
      | _ :: _ => .error .malformed

/-- The fields of an object from the one that starts here. -/
def fieldsFrom : Nat → List (Option String × Json) → List Char → Except Refusal (Json × List Char)
  | 0, _, _ => .error .malformed
  | fuel + 1, read, cs =>
    match cs with
    | [] => .error .cutShort
    | '"' :: rest =>
      match stringFrom [] true rest with
      | .error e => .error e
      | .ok (key, rest) =>
        match skipBlank rest with
        | [] => .error .cutShort
        | ':' :: rest =>
          match valueFrom fuel rest with
          | .error e => .error e
          | .ok (v, rest) =>
            match skipBlank rest with
            | [] => .error .cutShort
            | '\x7d' :: rest => .ok (.obj ((key, v) :: read).reverse, rest)
            | ',' :: rest => fieldsFrom fuel ((key, v) :: read) (skipBlank rest)
            | _ :: _ => .error .malformed
        | _ :: _ => .error .malformed
    | _ :: _ => .error .malformed

end

/-- The value that a text consists of, blanks around it apart. -/
def read (text : String) : Except Refusal Json := do
  let cs := text.toList
  let (v, rest) ← valueFrom (cs.length + 1) cs
  if skipBlank rest = [] then pure v else .error .malformed

end TreeTidy.Json
