import TreeTidy.Source.Lexeme
/-!
Reading a sequence of tokens from front to back. A cursor is the number of tokens read and the tokens
that are left; a reader either moves the cursor on or says what it wanted, where, and what is there.
-/
namespace TreeTidy

/-- What a reader wants. -/
inductive Wanted
  | mark (text : String)
  | identifier
  | expression
  | endOfInput
  deriving DecidableEq, Repr

def Wanted.text : Wanted → String
  | mark text => "`" ++ text ++ "`"
  | identifier => "identifier"
  | expression => "expression"
  | endOfInput => "end of input"

inductive ParseError
  | lexical (cause : LexError)
  | missing (wanted : Wanted) (place : Nat) (found : Option Token)
  /-- The text goes on after what was wanted of it. -/
  | trailing (text : String)
  /-- The fuel was used up. -/
  | exhausted
  deriving DecidableEq, Repr

def ParseError.message : ParseError → String
  | lexical cause => cause.message
  | missing wanted place found =>
    "expected " ++ wanted.text ++ " at token " ++ toString place ++ " (" ++ Token.shownAt found ++ ")"
  | trailing text => "trailing input in `" ++ text ++ "`"
  | exhausted => "too deep"

structure Cursor where
  place : Nat
  rest : List Token
  deriving DecidableEq, Repr

abbrev Reader := StateT Cursor (Except ParseError)

namespace Cursor

def ofTokens (ts : List Token) : Cursor := ⟨0, ts⟩

/-- The weight of the tokens that are left. -/
def weight (c : Cursor) : Nat := c.rest.foldr (fun t n => t.weight + n) 0

/-- The cursor after so many more tokens. -/
def skip (c : Cursor) (n : Nat) : Cursor := ⟨c.place + n, c.rest.drop n⟩

/-- The cursor before the given rest of its tokens. -/
def before (c : Cursor) (rest : List Token) : Cursor :=
  ⟨c.place + (c.rest.length - rest.length), rest⟩

end Cursor

namespace Reader

/-- Words that are no identifiers. -/
def keywords : List String :=
  ["class", "interface", "if", "else", "while", "for", "return", "throw", "break", "continue", "new",
    "this", "super", "true", "false", "null", "instanceof", "import", "package", "var"]

def isKeyword (word : String) : Bool := keywords.contains word

/-- The tokens that are left. -/
def rest : Reader (List Token) := fun c => .ok (c.rest, c)

def peek? : Reader (Option Token) := fun c => .ok (c.rest.head?, c)

def skip (n : Nat) : Reader Unit := fun c => .ok ((), c.skip n)

def fail {α : Type} (wanted : Wanted) : Reader α := fun c =>
  .error (.missing wanted c.place c.rest.head?)

def exhausted {α : Type} : Reader α := fun _ => .error .exhausted

def isAtEnd : Reader Bool := fun c => .ok (c.rest.isEmpty, c)

def isAt (mark : String) : Reader Bool := fun c => .ok (c.rest.head? == some (.mark mark), c)

/-- Takes a token if it is next; says whether it was. -/
def takes (t : Token) : Reader Bool := fun c =>
  match c.rest with
  | [] => .ok (false, c)
  | u :: rest => if u = t then .ok (true, ⟨c.place + 1, rest⟩) else .ok (false, c)

def takesMark (mark : String) : Reader Bool := takes (.mark mark)

def takesWord (word : String) : Reader Bool := takes (.word word)

/-- Takes a mark that has to be next. -/
def expect (mark : String) : Reader Unit := do
  if !(← takesMark mark) then fail (.mark mark)

def identifier : Reader String := fun c =>
  match c.rest with
  | .word w :: rest =>
    if isKeyword w then .error (.missing .identifier c.place (some (.word w)))
    else .ok (w, ⟨c.place + 1, rest⟩)
  | rest => .error (.missing .identifier c.place rest.head?)

/-- The parts that tokens add to a qualified name, and the tokens after them. -/
def nameTail : List Token → List String × List Token
  | .mark "." :: .word w :: rest =>
    if isKeyword w then ([], .mark "." :: .word w :: rest)
    else
      let (parts, rest) := nameTail rest
      (w :: parts, rest)
  | rest => ([], rest)

/-- Identifiers with points between them. -/
def qualifiedName : Reader String := do
  let first ← identifier
  fun c =>
    let (parts, rest) := nameTail c.rest
    .ok (".".intercalate (first :: parts), c.before rest)

/-- Takes the `>` that ends a list of types, which may be the first part of a longer mark. -/
def closeAngle : Reader Unit := fun c =>
  match c.rest with
  | .mark ">" :: rest => .ok ((), ⟨c.place + 1, rest⟩)
  | .mark ">>" :: rest => .ok ((), ⟨c.place, .mark ">" :: rest⟩)
  | .mark ">>>" :: rest => .ok ((), ⟨c.place, .mark ">>" :: rest⟩)
  | rest => .error (.missing (.mark ">") c.place rest.head?)

end Reader

end TreeTidy
