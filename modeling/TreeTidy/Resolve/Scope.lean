import TreeTidy.Tree.Basic
import TreeTidy.Types.ClassTable
/-!
Scopes: which declaration a variable name refers to, and which class a simple type name denotes, seen
from a node.
-/
namespace TreeTidy.SyntaxTree

/-- Whether a node declares a local variable of that name. -/
def isLocalVar (t : SyntaxTree) (name : String) (n : NodeId) : Bool :=
  t.kind n == .localVar name

def isParam (t : SyntaxTree) (name : String) (n : NodeId) : Bool := t.kind n == .param name

def isField (t : SyntaxTree) (name : String) (n : NodeId) : Bool := t.kind n == .fieldDecl name

/-- What a scope declares of that name for its child: in a block the last variable before the child,
in a loop over elements the loop variable for the body, in a lambda, method or constructor a
parameter, in a class a field. -/
def declaredFor? (t : SyntaxTree) (name : String) (scope child : NodeId) : Option NodeId :=
  match t.kind scope with
  | .block =>
    match t.position? child with
    | some (.list i) => ((t.list scope).take i).reverse.find? (t.isLocalVar name)
    | _ => none
  | .forEach var => if var = name && t.slot? scope 2 == some child then some scope else none
  | .lambda _ | .methodDecl _ | .constructorDecl _ => (t.list scope).find? (t.isParam name)
  | .classDecl _ _ => (t.list scope).find? (t.isField name)
  | _ => none

/-- The first declaration met on the way out through the given scopes. -/
def declaredOutward? (t : SyntaxTree) (name : String) : (child : NodeId) → List NodeId → Option NodeId
  | _, [] => none
  | child, scope :: outer =>
    match t.declaredFor? name scope child with
    | some d => some d
    | none => declaredOutward? t name scope outer

/-- The declaration that a variable name refers to at a node. -/
def lookupVariable? (t : SyntaxTree) (n : NodeId) (name : String) : Option NodeId :=
  t.declaredOutward? name n (t.ancestors n)

def isUnit (t : SyntaxTree) (n : NodeId) : Bool := (t.kind n).category == .unit

def isClass (t : SyntaxTree) (n : NodeId) : Bool :=
  match t.kind n with
  | .classDecl _ _ => true
  | _ => false

/-- The compilation unit around a node, or the node itself. -/
def unitOf? (t : SyntaxTree) (n : NodeId) : Option NodeId := (n :: t.ancestors n).find? t.isUnit

/-- The package of a compilation unit. -/
def package? (t : SyntaxTree) (unit : NodeId) : Option String :=
  match t.kind unit with
  | .compilationUnit package => package
  | _ => none

def enclosingClass? (t : SyntaxTree) (n : NodeId) : Option NodeId := (t.ancestors n).find? t.isClass

/-- A simple name in a package. -/
def inPackage (package : Option String) (name : String) : String :=
  match package with
  | some p => p ++ "." ++ name
  | none => name

/-- The qualified name of a class declaration. -/
def declaredClassName (t : SyntaxTree) (c : NodeId) : String :=
  match t.kind c with
  | .classDecl name _ => inPackage ((t.unitOf? c).bind t.package?) name
  | _ => "java.lang.Object"

/-- The imports of a compilation unit. -/
def importsOf (t : SyntaxTree) (unit : NodeId) : List NodeKind :=
  match t.slot? unit 0 with
  | some imports => (t.list imports).map t.kind
  | none => []

/-- The class that a single import of that simple name brings in. -/
def importedAs? (simple : String) : NodeKind → Option String
  | .importDecl path false false => if Name.simpleName path = simple then some path else none
  | _ => none

/-- Whether an import brings in whole packages other than `java.lang`. -/
def isForeignWildcard : NodeKind → Bool
  | .importDecl path false true => path != "java.lang"
  | _ => false

/-- Whether the unit declares a class of that name. -/
def declaresClass (t : SyntaxTree) (unit : NodeId) (simple : String) : Bool :=
  (t.descendants unit).any fun n =>
    match t.kind n with
    | .classDecl name _ => name == simple
    | _ => false

/-- The class that a simple name denotes at a node: a single import decides, then a declaration of
the unit, then `java.lang`, unless an import of a whole package may bring in another. -/
def visibleType (t : SyntaxTree) (classes : ClassTable) (n : NodeId) (simple : String) :
    Resolution String :=
  match t.unitOf? n with
  | none => .unknown
  | some unit =>
    let imports := t.importsOf unit
    match imports.findSome? (importedAs? simple) with
    | some path => .resolved path
    | none =>
      if t.declaresClass unit simple then .resolved (inPackage (t.package? unit) simple)
      else if imports.any isForeignWildcard then .unknown
      else
        let implicit := "java.lang." ++ simple
        if classes.contains implicit then .resolved implicit else .absent

end TreeTidy.SyntaxTree
