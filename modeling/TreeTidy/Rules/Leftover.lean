import TreeTidy.Rules.Plan
import TreeTidy.Rules.Shape
/-! Rules that take away what says nothing: empty statements, implied calls, modifiers and imports. -/
namespace TreeTidy.Rules

/-- Takes a node away. -/
def takeAway (n : NodeId) : Plan := ⟨[], .remove n⟩

/-- A `;` in a block goes; after `if (c)` it has to stay. -/
def emptyStatement.planAt (v : View) (n : NodeId) : Option Plan :=
  let t := v.tree
  if t.kind n == .emptyStmt && (t.parent? n).any fun p => t.kind p == .block then
    some (takeAway n)
  else none

def emptyStatement : Rule := .ofPlan
  { RuleInfo.ofId "EmptyStatement" with
    externalRefs := [⟨"PMD", "UnnecessarySemicolon", none⟩, ⟨"Sonar", "S1116", none⟩]
    tags := ["Statement"]
    description := "Remove empty statements" }
  .statement emptyStatement.planAt

def isConstructor : NodeKind → Bool
  | .constructorDecl _ => true
  | _ => false

/-- A `super();` at the start of a constructor goes. -/
def removeExplicitSuperCall.planAt (v : View) (n : NodeId) : Option Plan := do
  let t := v.tree
  if t.kind n ≠ .constructorCall true || !(t.list n).isEmpty then none
  else
    let body ← t.parent? n
    if (t.list body).head? = some n && (t.parent? body).any fun o => isConstructor (t.kind o) then
      some (takeAway n)
    else none

def removeExplicitSuperCall : Rule := .ofPlan
  { RuleInfo.ofId "RemoveExplicitSuperCall" with
    tags := ["Declaration"]
    description := "Remove a no-argument `super()` call at the start of a constructor" }
  .node removeExplicitSuperCall.planAt

/-- Whether members of an interface have a modifier without its being written. -/
def isImplied (member : NodeKind) (m : Modifier) : Bool :=
  match member with
  | .methodDecl _ => m == .publicMod || m == .abstractMod
  | .fieldDecl _ => m == .publicMod || m == .staticMod || m == .finalMod
  | _ => false

def isInterface : NodeKind → Bool
  | .classDecl _ .interface => true
  | _ => false

/-- Modifiers go that members of an interface have anyway. -/
def unnecessaryModifier.planAt (v : View) (n : NodeId) : Option Plan :=
  let t := v.tree
  match t.kind n, t.ancestors n with
  | .modifier m, _ :: member :: owner :: _ =>
    if isInterface (t.kind owner) && isImplied (t.kind member) m then some (takeAway n) else none
  | _, _ => none

def unnecessaryModifier : Rule := .ofPlan
  { RuleInfo.ofId "UnnecessaryModifier" with
    externalRefs := [⟨"PMD", "UnnecessaryModifier", none⟩, ⟨"Sonar", "S2333", none⟩]
    tags := ["Declaration"]
    description := "Remove modifiers interface members carry implicitly" }
  .node unnecessaryModifier.planAt

/-- The children of a node's parent. -/
def siblings (t : SyntaxTree) (n : NodeId) : List NodeId :=
  ((t.parent? n).map t.list).getD []

/-- Whether an earlier child of the parent is of the same kind. -/
def isDuplicate (t : SyntaxTree) (n : NodeId) : Bool :=
  ((siblings t n).takeWhile (· ≠ n)).any fun s => t.kind s == t.kind n

/-- Whether another import may bring in a class of any name. -/
def hasForeignWildcard (t : SyntaxTree) (n : NodeId) : Bool :=
  (siblings t n).any fun s => SyntaxTree.isForeignWildcard (t.kind s)

/-- Whether an import, of a whole package or of one class in it, brings in nothing new: the package is
`java.lang`, and no other import can have another class of that name, or it is the unit's own. -/
def isImplicitImport (t : SyntaxTree) (n : NodeId) (path : String) (wildcard : Bool) : Bool :=
  let package := if wildcard then path else (Name.qualifier? path).getD ""
  (package == "java.lang" && (wildcard || !hasForeignWildcard t n))
    || (t.ancestors n).findSome? t.package? == some package

/-- Imports go that an earlier one repeats, or that bring in what is visible without them. -/
def unnecessaryImport.planAt (v : View) (n : NodeId) : Option Plan :=
  let t := v.tree
  match t.kind n with
  | .importDecl path isStatic wildcard =>
    if isDuplicate t n || (!isStatic && isImplicitImport t n path wildcard) then some (takeAway n)
    else none
  | _ => none

def unnecessaryImport : Rule := .ofPlan
  { RuleInfo.ofId "UnnecessaryImport" with
    externalRefs := [⟨"PMD", "UnnecessaryImport", none⟩, ⟨"Sonar", "S1128", none⟩]
    tags := ["Import"]
    description := "Remove duplicate imports and imports of implicitly visible types" }
  .node unnecessaryImport.planAt

end TreeTidy.Rules
