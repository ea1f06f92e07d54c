import TreeTidy.Grammar.Keyword
import TreeTidy.Grammar.Operator
/-!
Node kinds. A kind carries what a node says on its own (names, operators, flags); its children are
held by the node, in the shape that the kind's layout prescribes.
-/
namespace TreeTidy

inductive NodeKind
  -- declarations
  | compilationUnit (package : Option String)
  | importList
  | importDecl (path : String) (isStatic wildcard : Bool)
  | classDecl (name : String) (flavour : ClassFlavour)
  | methodDecl (name : String)
  | constructorDecl (name : String)
  | fieldDecl (name : String)
  | modifiers
  | modifier (keyword : Modifier)
  | param (name : String)
  -- types
  | primitiveType (primitive : Primitive)
  | classType (name : String) (diamond : Bool)
  | arrayType
  | varType
  -- statements
  | block
  | exprStmt
  | localVar (name : String)
  | ifStmt
  | whileLoop
  | forEach (name : String)
  | returnStmt
  | throwStmt
  | breakStmt
  | continueStmt
  | emptyStmt
  | constructorCall (isSuper : Bool)
  -- expressions
  | nameExpr (name : String)
  | typeName (name : String)
  | thisExpr
  | literal (sort : LiteralSort) (text : String)
  | unary (op : UnaryOp)
  | binary (op : BinaryOp)
  | conditional
  | assign (op : AssignOp)
  | paren
  | methodCall (name : String)
  | fieldAccess (name : String)
  | newObject
  | instanceOf
  | castExpr
  | lambda (parenthesized : Bool)
  | methodRef (name : String)
  | arrayAccess
  deriving DecidableEq, Repr, Inhabited

/-- Coarse classes of kinds. -/
inductive Category
  | unit | importList | importDecl | member | modifierList | modifier | param | type | statement
  | expression
  deriving DecidableEq, Repr, Inhabited

namespace NodeKind

def category : NodeKind → Category
  | compilationUnit _ => .unit
  | importList => .importList
  | importDecl _ _ _ => .importDecl
  | classDecl _ _ | methodDecl _ | constructorDecl _ | fieldDecl _ => .member
  | modifiers => .modifierList
  | modifier _ => .modifier
  | param _ => .param
  | primitiveType _ | classType _ _ | arrayType | varType => .type
  | block | exprStmt | localVar _ | ifStmt | whileLoop | forEach _ | returnStmt | throwStmt
  | breakStmt | continueStmt | emptyStmt | constructorCall _ => .statement
  | nameExpr _ | typeName _ | thisExpr | literal _ _ | unary _ | binary _ | conditional | assign _
  | paren | methodCall _ | fieldAccess _ | newObject | instanceOf | castExpr | lambda _
  | methodRef _ | arrayAccess => .expression

/-- The word for the kind in documents and reports. -/
def tag : NodeKind → String
  | compilationUnit _ => "compilation_unit"
  | importList => "import_list"
  | importDecl _ _ _ => "import"
  | classDecl _ _ => "class_decl"
  | methodDecl _ => "method_decl"
  | constructorDecl _ => "constructor_decl"
  | fieldDecl _ => "field_decl"
  | modifiers => "modifiers"
  | modifier _ => "modifier"
  | param _ => "param"
  | primitiveType _ => "primitive_type"
  | classType _ _ => "class_type"
  | arrayType => "array_type"
  | varType => "var_type"
  | block => "block"
  | exprStmt => "expr_stmt"
  | localVar _ => "local_var"
  | ifStmt => "if"
  | whileLoop => "while"
  | forEach _ => "for_each"
  | returnStmt => "return"
  | throwStmt => "throw"
  | breakStmt => "break"
  | continueStmt => "continue"
  | emptyStmt => "empty"
  | constructorCall _ => "explicit_constructor_call"
  | nameExpr _ => "name"
  | typeName _ => "type_name"
  | thisExpr => "this"
  | literal _ _ => "literal"
  | unary _ => "unary"
  | binary _ => "binary"
  | conditional => "conditional"
  | assign _ => "assign"
  | paren => "paren"
  | methodCall _ => "method_call"
  | fieldAccess _ => "field_access"
  | newObject => "new"
  | instanceOf => "instance_of"
  | castExpr => "cast"
  | lambda _ => "lambda"
  | methodRef _ => "method_ref"
  | arrayAccess => "array_access"

/-- The name that the kind declares or refers to. -/
def name? : NodeKind → Option String
  | importDecl path _ _ => some path
  | classDecl n _ | methodDecl n | constructorDecl n | fieldDecl n | param n | classType n _
  | localVar n | forEach n | nameExpr n | typeName n | methodCall n | fieldAccess n
  | methodRef n => some n
  | _ => none

def isExpression (k : NodeKind) : Bool := k.category == .expression

def isStatement (k : NodeKind) : Bool := k.category == .statement

end NodeKind

end TreeTidy
