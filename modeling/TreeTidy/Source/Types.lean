import TreeTidy.Document.Basic
import TreeTidy.Source.Lookahead
/-! Reading types and the parameters that they stand before. -/
namespace TreeTidy.Reader

/-- The pairs of brackets at the front. -/
def bracketPairs : List Token → Nat
  | .mark "[" :: .mark "]" :: rest => bracketPairs rest + 1
  | _ => 0

/-- An array type over arrays, so many levels deep. -/
def arrayOf (element : Doc) : Nat → Doc
  | 0 => element
  | n + 1 => arrayOf (.plain .arrayType [some element] []) n

/-- Takes the brackets after a type. -/
def brackets (element : Doc) : Reader Doc := do
  let n := bracketPairs (← rest)
  skip (2 * n)
  pure (arrayOf element n)

/-- Whether a list of types ends where it starts. -/
def isAtClose (ts : List Token) : Bool :=
  match ts with
  | .mark m :: _ => m == ">" || m == ">>" || m == ">>>"
  | _ => false

mutual

def type : (fuel : Nat) → Reader Doc
  | 0 => exhausted
  | fuel + 1 => do
    match ← peek? with
    | some (.word w) =>
      match Primitive.ofKeyword? w with
      | some p => do
        skip 1
        brackets (.plain (.primitiveType p) [] [])
      | none =>
        if w = "var" then
          skip 1
          brackets (.plain .varType [] [])
        else namedType fuel
    | _ => namedType fuel

/-- A class with the types in its angle brackets. -/
def namedType : (fuel : Nat) → Reader Doc
  | 0 => exhausted
  | fuel + 1 => do
    let name ← qualifiedName
    if ← takesMark "<" then
      if isAtClose (← rest) then
        closeAngle
        brackets (.plain (.classType name true) [] [])
      else
        let args ← typeList fuel
        closeAngle
        brackets (.plain (.classType name false) [] args)
    else brackets (.plain (.classType name false) [] [])

/-- Types with commas between them. -/
def typeList : (fuel : Nat) → Reader (List Doc)
  | 0 => exhausted
  | fuel + 1 => do
    let first ← type fuel
    if ← takesMark "," then
      let more ← typeList fuel
      pure (first :: more)
    else pure [first]

end

def param (name : String) (type : Option Doc) : Doc := .plain (.param name) [type] []

/-- Parameters up to the closing parenthesis, of which there is at least one. -/
def paramsFrom : (fuel : Nat) → Reader (List Doc)
  | 0 => exhausted
  | fuel + 1 => do
    let ty ← type fuel
    let name ← identifier
    if ← takesMark ")" then pure [param name (some ty)]
    else
      expect ","
      let more ← paramsFrom fuel
      pure (param name (some ty) :: more)

/-- Parameters in parentheses, each with its type. -/
def params (fuel : Nat) : Reader (List Doc) := do
  expect "("
  if ← takesMark ")" then pure []
  else paramsFrom fuel

/-- Parameters of a lambda up to the closing parenthesis; types and commas may be left out. -/
def lambdaParams : (fuel : Nat) → Reader (List Doc)
  | 0 => exhausted
  | fuel + 1 => do
    if ← takesMark ")" then pure []
    else
      let ty ← if Lookahead.startsTyped (← rest) then do
          let ty ← type fuel
          pure (some ty)
        else pure none
      let name ← identifier
      let _ ← takesMark ","
      let more ← lambdaParams fuel
      pure (param name ty :: more)

end TreeTidy.Reader
