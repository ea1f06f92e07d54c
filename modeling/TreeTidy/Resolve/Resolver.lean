import TreeTidy.Resolve.Infer
import TreeTidy.Types.Library
/-!
Resolvers answer three questions: the type of a node, the class that a simple name denotes at a node,
and what is known of a class, inheritance above all. The resolver over scopes infers types; the empty one
knows only what units state. A scope resolver may keep its answers while the tree stays the same.
-/
namespace TreeTidy

structure Resolver where
  typeOf : SyntaxTree → NodeId → Resolution TypeDesc
  visibleType : SyntaxTree → NodeId → String → Resolution String
  classes : ClassTable
  /-- Whether a class is another one or inherits from it; told by the classes unless a resolver knows better. -/
  isSubtype : String → String → Resolution Bool := classes.isSubtype

namespace Resolver

/-- Infers types and reads scopes, over a table of classes. -/
def scope (classes : ClassTable) : Resolver where
  typeOf := Infer.typeOf classes
  visibleType := fun t n s => t.visibleType classes n s
  classes := classes

/-- The scope resolver over the library and the classes that a unit states. -/
def ofClasses (stated : List ClassInfo) : Resolver := scope (Library.classes.insertAll stated)

/-- Knows the stated types only. -/
def unresolved : Resolver where
  typeOf := fun t n => .ofOption (t.node n).ty
  visibleType := fun _ _ _ => .unknown
  classes := .empty

/-- Whether the type of a node is a class that inherits from the other. -/
def isSubtypeAt (r : Resolver) (t : SyntaxTree) (n : NodeId) (ancestor : String) :
    Resolution Bool :=
  (r.typeOf t n).bind fun ty =>
    match ty.className? with
    | some c => r.isSubtype c ancestor
    | none => .resolved false

end Resolver

/-- Types found for one state of one tree. -/
structure TypeCache where
  tree : Nat
  revision : Nat
  answers : Infer.Answers
  deriving Repr, Inhabited

namespace TypeCache

/-- Nothing found yet; no tree has identity 0. -/
def empty : TypeCache := ⟨0, 0, []⟩

/-- The answers that still hold: those of the same tree at the same revision. -/
def current (c : TypeCache) (t : SyntaxTree) : Infer.Answers :=
  if c.tree = t.id ∧ c.revision = t.revision then c.answers else []

/-- The type of a node, with the answers kept so far. -/
def typeOf (c : TypeCache) (classes : ClassTable) (t : SyntaxTree) (n : NodeId) :
    Resolution TypeDesc × TypeCache :=
  let (ty, answers) := Infer.typeWithin classes t (t.size + 1) n (c.current t)
  (ty, ⟨t.id, t.revision, answers⟩)

end TypeCache

end TreeTidy
