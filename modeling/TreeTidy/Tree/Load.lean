import TreeTidy.Document.Decode
import TreeTidy.Document.Encode
import TreeTidy.Tree.Create
import TreeTidy.Tree.Edit
/-!
Building trees of documents. Every node is made after its children, slots before list, so the first
node that does not fit its layout is the one reported, with its place in the document.
-/
namespace TreeTidy

/-- The way from the root of a document to one of its nodes. -/
abbrev DocPath := List Position

def DocPath.text (way : DocPath) : String :=
  "$" ++ String.join (way.map fun
    | .slot i => ".slots[" ++ toString i ++ "]"
    | .list i => ".list[" ++ toString i ++ "]")

/-- A node of a document that cannot be made. -/
structure BuildError where
  place : DocPath
  cause : TreeError
  deriving DecidableEq, Repr

def BuildError.message (e : BuildError) : String :=
  "invalid node at " ++ e.place.text ++ ": " ++ e.cause.message

namespace SyntaxTree

mutual

/-- Makes a node and all below it; also gives the tree with what was made before a failure. -/
def build (t : SyntaxTree) (place : DocPath) :
    Doc → Except BuildError NodeId × SyntaxTree
  | .node kind span ty slots list =>
    match buildSlots t place 0 slots with
    | (.error e, t) => (.error e, t)
    | (.ok slots, t) =>
      match buildList t place 0 list with
      | (.error e, t) => (.error e, t)
      | (.ok list, t) =>
        match t.create? ⟨kind, span, ty, slots, list⟩ with
        | .error e => (.error ⟨place, e⟩, t)
        | .ok (n, t) => (.ok n, t)

def buildSlots (t : SyntaxTree) (place : DocPath) (i : Nat) :
    List (Option Doc) → Except BuildError (List (Option NodeId)) × SyntaxTree
  | [] => (.ok [], t)
  | none :: slots =>
    match buildSlots t place (i + 1) slots with
    | (.error e, t) => (.error e, t)
    | (.ok ns, t) => (.ok (none :: ns), t)
  | some d :: slots =>
    match build t (place ++ [.slot i]) d with
    | (.error e, t) => (.error e, t)
    | (.ok n, t) =>
      match buildSlots t place (i + 1) slots with
      | (.error e, t) => (.error e, t)
      | (.ok ns, t) => (.ok (some n :: ns), t)

def buildList (t : SyntaxTree) (place : DocPath) (i : Nat) :
    List Doc → Except BuildError (List NodeId) × SyntaxTree
  | [] => (.ok [], t)
  | d :: list =>
    match build t (place ++ [.list i]) d with
    | (.error e, t) => (.error e, t)
    | (.ok n, t) =>
      match buildList t place (i + 1) list with
      | (.error e, t) => (.error e, t)
      | (.ok ns, t) => (.ok (n :: ns), t)

end

end SyntaxTree

/-- Why a text gives no unit. -/
inductive LoadError
  | refused (cause : Json.Refusal)
  | unbuilt (cause : BuildError)
  deriving DecidableEq, Repr

def LoadError.message : LoadError → String
  | refused cause => "malformed unit: " ++ cause.text
  | unbuilt cause => cause.message

/-- A source unit: its tree, and what is stated of the classes around it. -/
structure SourceUnit where
  path : String
  level : Level
  classes : List ClassInfo
  tree : SyntaxTree
  deriving Repr, Inhabited

namespace SourceUnit

/-- Builds a unit, under the given identity of its tree. -/
def ofDoc (id : Nat) (d : UnitDoc) : Except LoadError SourceUnit :=
  match (SyntaxTree.empty id).build [] d.root with
  | (.error e, _) => .error (.unbuilt e)
  | (.ok root, t) =>
    match t.setRoot? root with
    | .error e => .error (.unbuilt ⟨[], e⟩)
    | .ok t => .ok ⟨d.path, d.level, d.classes, t⟩

/-- The unit that a JSON text describes. -/
def read (id : Nat) (text : String) : Except LoadError SourceUnit :=
  match UnitDoc.read text with
  | .error e => .error (.refused e)
  | .ok d => ofDoc id d

/-- The document of the unit; a built unit has a root. -/
def toDoc (u : SourceUnit) : UnitDoc := ⟨u.path, u.level, u.classes, u.tree.rootDoc?.getD default⟩

/-- The unit as JSON text. -/
def write (u : SourceUnit) : String := u.toDoc.write

end SourceUnit

end TreeTidy
