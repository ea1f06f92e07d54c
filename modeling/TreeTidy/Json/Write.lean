import TreeTidy.Json.Value
/-!
Writing JSON text: on one line without blanks, or with one item a line and two blanks a level.
Characters outside ASCII stay as they are; quotes, backslashes and control characters are escaped.
-/
namespace TreeTidy.Json

def hexDigit (n : Nat) : Char :=
  if n < 10 then Char.ofNat ('0'.toNat + n) else Char.ofNat ('a'.toNat + (n - 10))

def writeChar (c : Char) : List Char :=
  if c = '"' then ['\\', '"']
  else if c = '\\' then ['\\', '\\']
  else if c = '\x08' then ['\\', 'b']
  else if c = '\t' then ['\\', 't']
  else if c = '\n' then ['\\', 'n']
  else if c = '\x0c' then ['\\', 'f']
  else if c = '\r' then ['\\', 'r']
  else if c.toNat < 32 then ['\\', 'u', '0', '0', hexDigit (c.toNat / 16), hexDigit (c.toNat % 16)]
  else [c]

def writeText (s : String) : String :=
  String.ofList ('"' :: s.toList.flatMap writeChar ++ ['"'])

/-- A string without a text is written as an escape that has none. -/
def writeString : Option String → String
  | some s => writeText s
  | none => "\"\\ud800\""

mutual

/-- The text on one line. -/
def compact : Json → String
  | null => "null"
  | bool b => if b then "true" else "false"
  | num ds => ds
  | str s => writeString s
  | arr [] => "[]"
  | arr (v :: vs) => "[" ++ compact v ++ compactItems vs ++ "]"
  | obj [] => "\x7b\x7d"
  | obj ((k, v) :: fs) => "\x7b" ++ writeString k ++ ":" ++ compact v ++ compactFields fs ++ "\x7d"

def compactItems : List Json → String
  | [] => ""
  | v :: vs => "," ++ compact v ++ compactItems vs

def compactFields : List (Option String × Json) → String
  | [] => ""
  | (k, v) :: fs => "," ++ writeString k ++ ":" ++ compact v ++ compactFields fs

end

/-- A new line with the blanks of its level. -/
def lineBreak (level : Nat) : String :=
  String.ofList ('\n' :: List.replicate (2 * level) ' ')

mutual

/-- The text with one item a line, for a value at the given level. -/
def pretty (level : Nat) : Json → String
  | null => "null"
  | bool b => if b then "true" else "false"
  | num ds => ds
  | str s => writeString s
  | arr [] => "[]"
  | arr (v :: vs) =>
    "[" ++ lineBreak (level + 1) ++ pretty (level + 1) v ++ prettyItems (level + 1) vs
      ++ lineBreak level ++ "]"
  | obj [] => "\x7b\x7d"
  | obj ((k, v) :: fs) =>
    "\x7b" ++ lineBreak (level + 1) ++ writeString k ++ ": " ++ pretty (level + 1) v
      ++ prettyFields (level + 1) fs ++ lineBreak level ++ "\x7d"

def prettyItems (level : Nat) : List Json → String
  | [] => ""
  | v :: vs => "," ++ lineBreak level ++ pretty level v ++ prettyItems level vs

def prettyFields (level : Nat) : List (Option String × Json) → String
  | [] => ""
  | (k, v) :: fs =>
    "," ++ lineBreak level ++ writeString k ++ ": " ++ pretty level v ++ prettyFields level fs

end

/-- The fields of every object in the order of their names. -/
def sortFields : Json → Json
  | arr vs => arr (items vs)
  | obj fs => obj ((fields fs).mergeSort fun a b => decide (a.1.getD "" ≤ b.1.getD ""))
  | v => v
where
  items : List Json → List Json
    | [] => []
    | v :: vs => sortFields v :: items vs
  fields : List (Option String × Json) → List (Option String × Json)
    | [] => []
    | (k, v) :: fs => (k, sortFields v) :: fields fs

end TreeTidy.Json
