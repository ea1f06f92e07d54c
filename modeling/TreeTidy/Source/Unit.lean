import TreeTidy.Source.Body
/-!
Reading declarations and whole units. The readers are given fuel for ten calls per unit of weight of
the tokens: between two tokens no more of them call each other.
-/
namespace TreeTidy.Reader

/-- The modifiers at the front. -/
def modifiersAt : List Token → List Modifier
  | .word w :: rest =>
    match Coded.ofCode? w with
    | some m => m :: modifiersAt rest
    | none => []
  | _ => []

def modifiers : Reader Doc := do
  let ms := modifiersAt (← rest)
  skip ms.length
  pure (.plain .modifiers [] (ms.map fun m => .plain (.modifier m) [] []))

/-- Whether a constructor of the class starts here. -/
def startsConstructor (owner : Option String) : List Token → Bool
  | .word w :: .mark "(" :: _ => owner == some w
  | _ => false

/-- The word that starts a class. -/
def classFlavour? : Reader (Option ClassFlavour) := do
  if ← takesWord "class" then pure (some .plain)
  else if ← takesWord "interface" then pure (some .interface)
  else pure none

/-- The body of a method; without one there is a semicolon. -/
def methodBody (fuel : Nat) : Reader (Option Doc) := do
  if ← takesMark ";" then pure none
  else
    let d ← block fuel
    pure (some d)

/-- A field or a method, after its modifiers. -/
def fieldOrMethod (fuel : Nat) (modifiers : Doc) : Reader Doc := do
  let ty ← type fuel
  let name ← identifier
  if ← isAt "(" then
    let ps ← params fuel
    let body ← methodBody fuel
    pure (.plain (.methodDecl name) [some modifiers, some ty, body] ps)
  else
    let value ← if ← takesMark "=" then do
        let d ← expression fuel
        pure (some d)
      else pure none
    expect ";"
    pure (.plain (.fieldDecl name) [some modifiers, some ty, value] [])

mutual

/-- A member of a class or of the unit. -/
def member : (fuel : Nat) → (owner : Option String) → Reader Doc
  | 0, _ => exhausted
  | fuel + 1, owner => do
    let ms ← modifiers
    match ← classFlavour? with
    | some flavour =>
      let name ← identifier
      expect "\x7b"
      let body ← members fuel name
      pure (.plain (.classDecl name flavour) [some ms] body)
    | none =>
      if startsConstructor owner (← rest) then
        let name ← identifier
        let ps ← params fuel
        let body ← block fuel
        pure (.plain (.constructorDecl name) [some ms, some body] ps)
      else fieldOrMethod fuel ms

/-- Members up to the closing brace of their class. -/
def members : (fuel : Nat) → (owner : String) → Reader (List Doc)
  | 0, _ => exhausted
  | fuel + 1, owner => do
    if ← takesMark "\x7d" then pure []
    else
      let first ← member fuel (some owner)
      let more ← members fuel owner
      pure (first :: more)

end

/-- Members up to the end of the text. -/
def membersToEnd : (fuel : Nat) → Reader (List Doc)
  | 0 => exhausted
  | fuel + 1 => do
    if ← isAtEnd then pure []
    else
      let first ← member fuel none
      let more ← membersToEnd fuel
      pure (first :: more)

def importsFrom : (fuel : Nat) → Reader (List Doc)
  | 0 => exhausted
  | fuel + 1 => do
    if ← takesWord "import" then
      let isStatic ← takesWord "static"
      let path ← qualifiedName
      let wildcard ← takesMark "."
      if wildcard then expect "*"
      expect ";"
      let more ← importsFrom fuel
      pure (.plain (.importDecl path isStatic wildcard) [] [] :: more)
    else pure []

def package : Reader (Option String) := do
  if ← takesWord "package" then
    let name ← qualifiedName
    expect ";"
    pure (some name)
  else pure none

def unit (fuel : Nat) : Reader Doc := do
  let name ← package
  let imports ← importsFrom fuel
  let body ← membersToEnd fuel
  pure (.plain (.compilationUnit name) [some (.plain .importList [] imports)] body)

/-- Enough fuel for all tokens that are left. -/
def fuelFor (c : Cursor) : Nat := 10 * c.weight + 10

/-- Reads a whole text; what may be left is told by the error. -/
def readAll (r : Nat → Reader Doc) (leftOver : Cursor → ParseError) (text : String) :
    Except ParseError Doc := do
  let ts ← (Token.ofText text).mapError .lexical
  let start := Cursor.ofTokens ts
  let (d, c) ← r (fuelFor start) start
  if c.rest.isEmpty then pure d else throw (leftOver c)

end TreeTidy.Reader

namespace TreeTidy

open Reader

/-- The unit that a text is. -/
def Doc.readUnit (text : String) : Except ParseError Doc :=
  readAll unit (fun c => .missing .endOfInput c.place c.rest.head?) text

/-- The expression that a text is. -/
def Doc.readExpression (text : String) : Except ParseError Doc :=
  readAll expression (fun _ => .trailing text) text

end TreeTidy
