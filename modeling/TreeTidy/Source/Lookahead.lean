import TreeTidy.Grammar.Keyword
import TreeTidy.Source.Cursor
/-!
Looking ahead: what follows a type, and whether tokens start a declaration, a cast or a lambda. Nothing
is read; types are only skipped, so what is found may still be refused when it is read.
-/
namespace TreeTidy.Lookahead

open Reader

/-- The tokens after the parts of a qualified type name; none if a point is not followed by one. -/
def afterNameTail : List Token → Option (List Token)
  | .mark "." :: .word w :: rest => if isKeyword w then none else afterNameTail rest
  | .mark "." :: _ => none
  | rest => some rest

/-- How much a token inside angle brackets opens; none for what cannot be there. -/
def angleDepth : Token → Option Int
  | .mark "<" => some 1
  | .mark ">" => some (-1)
  | .mark ">>" => some (-2)
  | .mark ">>>" => some (-3)
  | .mark "," | .mark "." | .mark "?" | .mark "[" | .mark "]" | .word _ => some 0
  | _ => none

/-- The tokens after those that bring the open brackets to none. -/
def afterAngles (depth : Int) : List Token → Option (List Token)
  | [] => none
  | t :: rest =>
    match angleDepth t with
    | none => none
    | some d => if depth + d ≤ 0 then some rest else afterAngles (depth + d) rest

def afterBrackets : List Token → List Token
  | .mark "[" :: .mark "]" :: rest => afterBrackets rest
  | rest => rest

/-- The tokens after a type. -/
def afterType? : List Token → Option (List Token)
  | .word w :: rest =>
    if isKeyword w && w != "var" then none
    else do
      let rest ← afterNameTail rest
      let rest ← match rest with
        | .mark "<" :: _ => afterAngles 0 rest
        | _ => some rest
      pure (afterBrackets rest)
  | _ => none

/-- Whether a local variable is declared: a type, a name, and then its value or the end. -/
def startsDeclaration (ts : List Token) : Bool :=
  match afterType? ts with
  | some (.word w :: .mark m :: _) => !isKeyword w && (m == "=" || m == ";")
  | _ => false

def startsPrimitive : List Token → Bool
  | .word w :: _ => (Primitive.ofKeyword? w).isSome
  | _ => false

/-- Whether a type in parentheses is a cast of what follows it. A sign follows a primitive type only;
elsewhere it is an operator. -/
def startsCast : List Token → Bool
  | .mark "(" :: rest =>
    match afterType? rest with
    | some (.mark ")" :: after) =>
      match after with
      | .word w :: _ => w != "instanceof"
      | .int _ :: _ | .long _ :: _ | .double _ :: _ | .string _ :: _ | .char _ :: _ => true
      | .mark m :: _ =>
        if m == "-" || m == "+" then startsPrimitive rest else m == "(" || m == "!" || m == "~"
      | [] => false
    | _ => false
  | _ => false

/-- The tokens after the parenthesis that closes the open ones. -/
def afterParens (depth : Nat) : List Token → Option (List Token)
  | [] => none
  | .mark "(" :: rest => afterParens (depth + 1) rest
  | .mark ")" :: rest => if depth ≤ 1 then some rest else afterParens (depth - 1) rest
  | _ :: rest => afterParens depth rest

/-- How the parameters of a lambda are written. -/
inductive LambdaForm
  | single
  | parenthesized
  deriving DecidableEq, Repr

/-- Whether a lambda starts, and how. -/
def lambdaForm? : List Token → Option LambdaForm
  | .word _ :: .mark "->" :: _ => some .single
  | .mark "(" :: rest =>
    match afterParens 1 rest with
    | some (.mark "->" :: _) => some .parenthesized
    | _ => none
  | _ => none

/-- Whether a parameter of a lambda has a type before its name. -/
def startsTyped : List Token → Bool
  | _ :: .word _ :: _ => true
  | _ :: .mark m :: _ => m == "<" || m == "[" || m == "."
  | _ => false

end TreeTidy.Lookahead
