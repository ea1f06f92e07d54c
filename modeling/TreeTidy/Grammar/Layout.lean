import TreeTidy.Grammar.Kind
/-!
Layouts: the slots that a kind's children fill, in order, and the list that may follow them. Each
place admits one class of kinds.
-/
namespace TreeTidy

/-- What one place for a child admits. -/
inductive SlotClass
  | expr | stmt | block | type | member | modifier | modifiers | importDecl | imports | param
  | lambdaBody | any
  deriving DecidableEq, Repr, Inhabited

namespace SlotClass

def all : List SlotClass :=
  [expr, stmt, block, type, member, modifier, modifiers, importDecl, imports, param, lambdaBody,
    any]

def accepts : SlotClass → NodeKind → Bool
  | expr, k => k.category == .expression
  | stmt, k => k.category == .statement
  | block, k => k == .block
  | type, k => k.category == .type
  | member, k => k.category == .member
  | modifier, k => k.category == .modifier
  | modifiers, k => k.category == .modifierList
  | importDecl, k => k.category == .importDecl
  | imports, k => k.category == .importList
  | param, k => k.category == .param
  | lambdaBody, k => k.category == .expression || k == .block
  | any, _ => true

end SlotClass

/-- A place for one child. -/
structure SlotSpec where
  admits : SlotClass
  optional : Bool
  deriving DecidableEq, Repr

/-- A place that has to be filled. -/
def SlotSpec.must (c : SlotClass) : SlotSpec := ⟨c, false⟩

/-- A place that may stay empty. -/
def SlotSpec.may (c : SlotClass) : SlotSpec := ⟨c, true⟩

/-- The children after the slots. -/
structure ListSpec where
  admits : SlotClass
  least : Nat
  deriving DecidableEq, Repr

/-- The shape of the children of a node. -/
structure Layout where
  slots : List SlotSpec
  list : Option ListSpec
  deriving DecidableEq, Repr

/-- Slots alone. -/
def Layout.fixed (slots : List SlotSpec) : Layout := ⟨slots, none⟩

/-- Slots, then any number of children of one class. -/
def Layout.many (slots : List SlotSpec) (c : SlotClass) : Layout := ⟨slots, some ⟨c, 0⟩⟩

namespace NodeKind

open SlotSpec Layout in
def layout : NodeKind → Layout
  | compilationUnit _ => many [must .imports] .member
  | importList => many [] .importDecl
  | classDecl _ _ => many [must .modifiers] .member
  | methodDecl _ => many [must .modifiers, must .type, may .block] .param
  | constructorDecl _ => many [must .modifiers, must .block] .param
  | fieldDecl _ => fixed [must .modifiers, must .type, may .expr]
  | modifiers => many [] .modifier
  | param _ => fixed [may .type]
  | classType _ _ => many [] .type
  | arrayType => fixed [must .type]
  | block => many [] .stmt
  | exprStmt | throwStmt => fixed [must .expr]
  | localVar _ => fixed [must .type, may .expr]
  | ifStmt => fixed [must .expr, must .stmt, may .stmt]
  | whileLoop => fixed [must .expr, must .stmt]
  | forEach _ => fixed [must .type, must .expr, must .stmt]
  | returnStmt => fixed [may .expr]
  | constructorCall _ => many [] .expr
  | unary _ | paren | fieldAccess _ | methodRef _ => fixed [must .expr]
  | binary _ | assign _ | arrayAccess => fixed [must .expr, must .expr]
  | conditional => fixed [must .expr, must .expr, must .expr]
  | methodCall _ => many [may .expr] .expr
  | newObject => many [must .type] .expr
  | instanceOf => fixed [must .expr, must .type]
  | castExpr => fixed [must .type, must .expr]
  | lambda _ => many [must .lambdaBody] .param
  | importDecl _ _ _ | modifier _ | primitiveType _ | varType | breakStmt | continueStmt
  | emptyStmt | nameExpr _ | typeName _ | thisExpr | literal _ _ => fixed []

end NodeKind

end TreeTidy
