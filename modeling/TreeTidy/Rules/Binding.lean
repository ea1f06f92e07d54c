import TreeTidy.Rules.Plan
/-!
Grouping. Every kind of expression binds at a level, from 0 for lambdas and assignments to 13 for
what needs no parentheses anywhere. Parentheses are added where a new expression binds too loosely.
-/
namespace TreeTidy

/-- How tightly an expression binds. -/
def NodeKind.binding : NodeKind → Nat
  | .lambda _ | .assign _ => 0
  | .conditional => 1
  | .binary op => op.precedence + 1
  | .instanceOf => BinaryOp.lt.precedence + 1
  | .unary op => if op.isPostfix then 13 else 12
  | .castExpr => 12
  | _ => 13

/-- Whether an expression that binds at a level needs parentheses in a slot of the given parent. -/
def needsParensIn (parent : NodeKind) (position : Position) (level : Nat) : Bool :=
  match parent, position with
  | .binary op, .slot 0 => decide (level < op.precedence + 1)
  | .binary op, _ => decide (level ≤ op.precedence + 1)
  | .instanceOf, .slot 0 => decide (level < NodeKind.binding .instanceOf)
  | .unary _, _ => decide (level < 12)
  | .castExpr, .slot 1 => decide (level < 12)
  | .fieldAccess _, .slot 0 | .methodRef _, .slot 0 | .arrayAccess, .slot 0
  | .methodCall _, .slot 0 => decide (level < 13)
  | .conditional, .slot 0 => decide (level ≤ 1)
  | .conditional, _ => decide (level < 1)
  | _, _ => false

/-- Whether an expression of a kind needs parentheses in the place of a node. -/
def SyntaxTree.needsParens (t : SyntaxTree) (n : NodeId) (kind : NodeKind) : Bool :=
  match t.parent? n, t.position? n with
  | some p, some pos => needsParensIn (t.kind p) pos kind.binding
  | _, _ => false

namespace Draft

/-- Puts an expression that binds looser than the level into parentheses. -/
def atLevel (level : Nat) (p : Piece) : Draft Piece :=
  if p.kind.binding < level then make .paren p.span [p] [] else pure p

/-- The negation of an expression. -/
def negate (p : Piece) : Draft Piece := do
  let operand ← atLevel 12 p
  make (.unary .not) p.span [operand] []

/-- Two expressions joined by an operator. -/
def join (op : BinaryOp) (a b : Piece) : Draft Piece := do
  let left ← atLevel (op.precedence + 1) a
  let right ← atLevel (op.precedence + 2) b
  make (.binary op) (a.span.cover b.span) [left, right] []

/-- A choice between two expressions. -/
def choose (cond yes no : Piece) : Draft Piece := do
  let test ← atLevel 2 cond
  make .conditional (cond.span.cover no.span) [test, yes, no] []

/-- A call without arguments on a copy of the receiver. -/
def callOnCopy (t : SyntaxTree) (receiver : NodeId) (name : String) : Draft Piece := do
  let r ← copy t receiver
  let r ← atLevel 13 r
  make (.methodCall name) (t.span receiver) [r] []

/-- Puts an expression in the place of a node, in parentheses where they are needed. A node of the
tree is moved as it is, unless parentheses around it are needed; then a copy is. -/
def putAt (t : SyntaxTree) (site : NodeId) (p : Piece) : Draft Commit :=
  if !t.needsParens site p.kind then pure (.replace site p.ref)
  else do
    let inner ← match p.ref with
      | .old n => copy t n
      | .new _ => pure p
    let wrapped ← make .paren (t.span site) [inner] []
    pure (.replace site wrapped.ref)

end Draft

end TreeTidy
