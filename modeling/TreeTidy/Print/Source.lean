import TreeTidy.Document.Basic
import TreeTidy.Print.Quoted
import TreeTidy.Tree.Basic
/-!
Source text of documents. Statements and members stand one a line, four blanks in for each body
around them. Parentheses are printed where the document has them and nowhere else. An empty slot
prints nothing.
-/
namespace TreeTidy

namespace Print

/-- A new line at the given depth. -/
def line (depth : Nat) : String :=
  String.ofList ('\n' :: List.replicate (4 * depth) ' ')

def commas (items : List String) : String := ", ".intercalate items

/-- Text before and after what a slot holds, if it holds something. -/
def wrapped (before : String) (slot : Option String) (after : String) : String :=
  match slot with
  | some s => before ++ s ++ after
  | none => ""

/-- Statements in braces, one a line. -/
def statements (depth : Nat) (items : List String) : String :=
  if items.isEmpty then "\x7b\x7d"
  else "\x7b" ++ String.join (items.map (line (depth + 1) ++ ·)) ++ line depth ++ "\x7d"

/-- Members in braces, with an empty line between them. -/
def members (depth : Nat) (items : List String) : String :=
  if items.isEmpty then "\x7b\x7d"
  else "\x7b" ++ line (depth + 1) ++ ("\n" ++ line (depth + 1)).intercalate items ++ line depth
    ++ "\x7d"

/-- The parts of a unit, with an empty line between them; a part without text is left out. -/
def unit (package imports : Option String) (items : List String) : String :=
  "\n\n".intercalate (((package.toList ++ imports.toList).filter (· ≠ "")) ++ items)

def literal (sort : LiteralSort) (text : String) : String :=
  match sort with
  | .string => Quoted.literal '"' text
  | .char => Quoted.literal '\'' text
  | _ => text

/-- The text of a node of the given kind, from the texts of its children. `bare` says that the only
child in the list is a parameter without a type. -/
def node (depth : Nat) (bare : Bool) (kind : NodeKind) (slots : List (Option String))
    (items : List String) : String :=
  let slot (i : Nat) : Option String := slots[i]?.join
  let child (i : Nat) : String := (slot i).getD ""
  match kind with
  | .compilationUnit package => unit (package.map ("package " ++ · ++ ";")) (slot 0) items
  | .importList => (line depth).intercalate items
  | .importDecl path isStatic wildcard =>
    "import " ++ (if isStatic then "static " else "") ++ path ++ (if wildcard then ".*" else "")
      ++ ";"
  | .classDecl n flavour =>
    child 0 ++ flavour.keyword ++ " " ++ n ++ " " ++ members depth items
  | .methodDecl n =>
    child 0 ++ child 1 ++ " " ++ n ++ "(" ++ commas items ++ ")"
      ++ (match slot 2 with | some body => " " ++ body | none => ";")
  | .constructorDecl n => child 0 ++ n ++ "(" ++ commas items ++ ") " ++ child 1
  | .fieldDecl n => child 0 ++ child 1 ++ " " ++ n ++ wrapped " = " (slot 2) "" ++ ";"
  | .modifiers => String.join (items.map (· ++ " "))
  | .modifier keyword => keyword.keyword
  | .param n => wrapped "" (slot 0) " " ++ n
  | .primitiveType p => p.keyword
  | .classType n diamond =>
    n ++ (if items.isEmpty then (if diamond then "<>" else "") else "<" ++ commas items ++ ">")
  | .arrayType => child 0 ++ "[]"
  | .varType => "var"
  | .block => statements depth items
  | .exprStmt => child 0 ++ ";"
  | .localVar n => child 0 ++ " " ++ n ++ wrapped " = " (slot 1) "" ++ ";"
  | .ifStmt => "if (" ++ child 0 ++ ") " ++ child 1 ++ wrapped " else " (slot 2) ""
  | .whileLoop => "while (" ++ child 0 ++ ") " ++ child 1
  | .forEach n => "for (" ++ child 0 ++ " " ++ n ++ " : " ++ child 1 ++ ") " ++ child 2
  | .returnStmt => "return" ++ wrapped " " (slot 0) "" ++ ";"
  | .throwStmt => "throw " ++ child 0 ++ ";"
  | .breakStmt => "break;"
  | .continueStmt => "continue;"
  | .emptyStmt => ";"
  | .constructorCall isSuper => (if isSuper then "super(" else "this(") ++ commas items ++ ");"
  | .nameExpr n => n
  | .typeName n => n
  | .thisExpr => "this"
  | .literal sort text => literal sort text
  | .unary op => if op.isPostfix then child 0 ++ op.token else op.token ++ child 0
  | .binary op => child 0 ++ " " ++ op.token ++ " " ++ child 1
  | .conditional => child 0 ++ " ? " ++ child 1 ++ " : " ++ child 2
  | .assign op => child 0 ++ " " ++ op.token ++ " " ++ child 1
  | .paren => "(" ++ child 0 ++ ")"
  | .methodCall n => wrapped "" (slot 0) "." ++ n ++ "(" ++ commas items ++ ")"
  | .fieldAccess n => child 0 ++ "." ++ n
  | .newObject => "new " ++ child 0 ++ "(" ++ commas items ++ ")"
  | .instanceOf => child 0 ++ " instanceof " ++ child 1
  | .castExpr => "(" ++ child 0 ++ ") " ++ child 1
  | .lambda parenthesized =>
    (if bare && !parenthesized then commas items else "(" ++ commas items ++ ")") ++ " -> "
      ++ child 0
  | .methodRef n => child 0 ++ "::" ++ n
  | .arrayAccess => child 0 ++ "[" ++ child 1 ++ "]"

/-- The depth at which the list children of a kind are printed. -/
def itemDepth (kind : NodeKind) (depth : Nat) : Nat :=
  match kind with
  | .block | .classDecl _ _ => depth + 1
  | _ => depth

/-- Whether a list holds one parameter, which has no type. -/
def isBare : List Doc → Bool
  | [d] => (d.slot? 0).isNone
  | _ => false

end Print

namespace Doc

mutual

def printAt (depth : Nat) : Doc → String
  | node kind _ _ slots list =>
    Print.node depth (Print.isBare list) kind (printSlots depth slots)
      (printList (Print.itemDepth kind depth) list)

def printSlots (depth : Nat) : List (Option Doc) → List (Option String)
  | [] => []
  | none :: ss => none :: printSlots depth ss
  | some d :: ss => some (printAt depth d) :: printSlots depth ss

def printList (depth : Nat) : List Doc → List String
  | [] => []
  | d :: ds => printAt depth d :: printList depth ds

end

def print (d : Doc) : String := d.printAt 0

end Doc

namespace SyntaxTree

/-- The source text of a node. -/
def printNode (t : SyntaxTree) (n : NodeId) : String := (t.doc n).print

/-- The source text of the tree; a tree without a root has none. -/
def print (t : SyntaxTree) : String := (t.rootDoc?.map Doc.print).getD ""

end SyntaxTree

end TreeTidy
