import TreeTidy.Command.Run
import TreeTidy.Source.Unit
/-!
Trials: named rules on a piece of source text, to see what they make of it. A piece that is no unit is
put into a method of a class, under imports that let types of the library be named.
-/
namespace TreeTidy

inductive TrialError
  | parse (cause : ParseError)
  | build (cause : BuildError)
  | catalog (cause : CatalogError)
  | schedule (cause : ScheduleError)
  | endless
  /-- The method has no body. -/
  | noBody
  /-- The body has no statement. -/
  | noStatement
  /-- The statement has no expression. -/
  | noExpression
  deriving DecidableEq, Repr

def TrialError.message : TrialError → String
  | parse cause => cause.message
  | build cause => cause.message
  | catalog cause => cause.message
  | schedule cause => cause.message
  | endless => "a pass does not come to an end"
  | noBody => "method body"
  | noStatement => "index out of bounds: the len is 0 but the index is 0"
  | noExpression => "expression"

namespace Trial

/-- The tree that a document describes, with its root. -/
def grow (d : Doc) : Except TrialError SyntaxTree :=
  match (SyntaxTree.empty 1).build [] d with
  | (.error e, _) => .error (.build e)
  | (.ok root, t) => (t.setRoot? root).mapError fun e => .build ⟨[], e⟩

/-- Runs the rules that names stand for, at the latest level. -/
def run (rules : List String) (t : SyntaxTree) : Except TrialError SyntaxTree := do
  let catalog ← Rules.catalog?.mapError .catalog
  let selection := { Selection.standard with taken := rules, level := Level.latest }
  let schedule ← (Schedule.ofSelection catalog selection).mapError .schedule
  match Session.run schedule.rules (.ofClasses []) .standard ampleFuel t with
  | some r => pure r.tree
  | none => throw .endless

/-- A whole unit after the rules. -/
def unit (rules : List String) (text : String) : Except TrialError String := do
  let d ← (Doc.readUnit text).mapError .parse
  let t ← run rules (← grow d)
  pure t.print

def prelude : String :=
  "import java.util.ArrayList;\n"
    ++ "import java.util.Collection;\n"
    ++ "import java.util.HashMap;\n"
    ++ "import java.util.List;\n"
    ++ "import java.util.Map;\n"
    ++ "import java.util.Objects;\n"
    ++ "import java.util.Optional;\n"
    ++ "import java.util.Set;\n"

/-- A unit with one method of the given parameters and body. -/
def unitAround (params body : String) : String :=
  prelude ++ "\nclass T \x7b\n void m(" ++ params ++ ") \x7b\n" ++ body ++ "\n\x7d\n\x7d"

/-- The first method of the first class. -/
def method? (t : SyntaxTree) : Option NodeId := do
  let root ← t.root
  let c ← (t.list root).head?
  (t.list c).head?

/-- The tree around a body after the rules, and the body. -/
def bodyAfter (rules : List String) (params body : String) :
    Except TrialError (SyntaxTree × NodeId) := do
  let d ← (Doc.readUnit (unitAround params body)).mapError .parse
  let before ← grow d
  let t ← run rules before
  match (method? before).bind fun m => t.slot? m 2 with
  | some b => pure (t, b)
  | none => throw .noBody

/-- The body of a method after the rules. -/
def body (rules : List String) (params text : String) : Except TrialError String := do
  let (t, b) ← bodyAfter rules params text
  pure (t.printNode b)

/-- An expression after the rules, as the statement that it makes. -/
def expression (rules : List String) (params text : String) : Except TrialError String := do
  let (t, b) ← bodyAfter rules params (text ++ ";")
  match (t.list b).head? with
  | none => throw .noStatement
  | some s =>
    match t.slot? s 0 with
    | some e => pure (t.printNode e)
    | none => throw .noExpression

end Trial

end TreeTidy
