import TreeTidy.Engine.Edit
import TreeTidy.Numeral
import TreeTidy.Tree.Walk
/-!
Shapes that rules look for. What cannot be decided does not match, so a type that is not known only
ever keeps a rule from being applied.
-/
namespace TreeTidy

/-- The whole number of 64 bits with sign that a text denotes, without any underscores in it. -/
def intValue? (text : String) : Option Int :=
  let cs := text.toList.filter (· ≠ '_')
  let (negative, ds) := match cs with
    | '-' :: ds => (true, ds)
    | '+' :: ds => (false, ds)
    | ds => (false, ds)
  (Numeral.read? ds).bind fun n =>
    let v : Int := if negative then -n else n
    if -(Numeral.bound 63 : Int) ≤ v ∧ v < Numeral.bound 63 then some v else none

/-- A method call in its parts. -/
structure Call where
  name : String
  receiver : Option NodeId
  args : List NodeId
  deriving DecidableEq, Repr

namespace Call

def isOf (c : Call) (name : String) (arity : Nat) : Bool :=
  c.name == name && c.args.length == arity

end Call

namespace SyntaxTree

/-- The node inside any number of parentheses. -/
def stripWithin (t : SyntaxTree) : (fuel : Nat) → NodeId → NodeId
  | 0, n => n
  | fuel + 1, n =>
    match t.kind n, t.slot? n 0 with
    | .paren, some inner => stripWithin t fuel inner
    | _, _ => n

def stripParens (t : SyntaxTree) (n : NodeId) : NodeId := t.stripWithin t.size n

def booleanLiteral? (t : SyntaxTree) (n : NodeId) : Option Bool :=
  match t.kind n with
  | .literal .boolean text => some (text == "true")
  | _ => none

def isNullLiteral (t : SyntaxTree) (n : NodeId) : Bool :=
  match t.kind n with
  | .literal .null _ => true
  | _ => false

def isLiteral (t : SyntaxTree) (n : NodeId) : Bool :=
  match t.kind n with
  | .literal _ _ => true
  | _ => false

/-- The value of an `int` literal. -/
def intLiteral? (t : SyntaxTree) (n : NodeId) : Option Int :=
  match t.kind n with
  | .literal .int text => intValue? text
  | _ => none

/-- The content of a string literal. -/
def stringLiteral? (t : SyntaxTree) (n : NodeId) : Option String :=
  match t.kind n with
  | .literal .string text => some text
  | _ => none

def call? (t : SyntaxTree) (n : NodeId) : Option Call :=
  match t.kind n with
  | .methodCall name => some ⟨name, t.slot? n 0, t.list n⟩
  | _ => none

/-- The receiver of a call of that name without arguments. -/
def nullaryCall? (t : SyntaxTree) (n : NodeId) (name : String) : Option NodeId :=
  match t.call? n with
  | some c => if c.isOf name 0 then c.receiver else none
  | none => none

/-- Whether computing a kind can do anything but give a value. Calls and the making of objects count
as if they did. -/
def hasEffect : NodeKind → Bool
  | .methodCall _ | .newObject | .assign _ => true
  | .unary op => op.writesOperand
  | _ => false

def isEffectFree (t : SyntaxTree) (n : NodeId) : Bool := !t.anyKind hasEffect n

/-- Whether a variable is named at a node or below it. -/
def mentions (t : SyntaxTree) (n : NodeId) (name : String) : Bool :=
  t.anyKind (fun k => k == .nameExpr name) n

/-- The only statement of a branch, which may be a block around it. -/
def singleStatement? (t : SyntaxTree) (n : NodeId) : Option NodeId :=
  match t.kind n with
  | .block =>
    match t.list n with
    | [only] => some only
    | _ => none
  | _ => some n

/-- The literal that a branch returns. -/
def returnedBoolean? (t : SyntaxTree) (n : NodeId) : Option Bool := do
  let stmt ← t.singleStatement? n
  if t.kind stmt ≠ .returnStmt then none
  let value ← t.slot? stmt 0
  t.booleanLiteral? (t.stripParens value)

/-- The operand of a negation, without parentheses around it. -/
def negatedOperand? (t : SyntaxTree) (n : NodeId) : Option NodeId :=
  match t.kind n with
  | .unary .not => (t.slot? n 0).map t.stripParens
  | _ => none

/-- Whether comparing a count with a bound tells an empty thing (`some true`) or one that is not. -/
def emptinessOf (op : BinaryOp) (bound : Int) : Option Bool :=
  if (op = .eq ∧ bound = 0) ∨ (op = .lt ∧ bound = 1) ∨ (op = .le ∧ bound = 0) then some true
  else if (op = .ne ∧ bound = 0) ∨ (op = .gt ∧ bound = 0) ∨ (op = .ge ∧ bound = 1) then some false
  else none

/-- A test of a count such as `x.size() == 0` or `0 < x.size()`: what is counted, and whether the test
asks for emptiness. -/
def emptinessTest? (t : SyntaxTree) (n : NodeId) (method : String) : Option (NodeId × Bool) :=
  match t.kind n with
  | .binary op => do
    let left := t.stripParens (← t.slot? n 0)
    let right := t.stripParens (← t.slot? n 1)
    let (measured, op, bound) ←
      match t.intLiteral? left, t.intLiteral? right with
      | none, some bound => some (left, op, bound)
      | some bound, none => op.flipped?.map fun op => (right, op, bound)
      | _, _ => none
    let receiver ← t.nullaryCall? measured method
    let empty ← emptinessOf op bound
    pure (receiver, empty)
  | _ => none

/-- Whether two type nodes spell the same type, to the given depth. -/
def sameTypeWithin (t : SyntaxTree) : (fuel : Nat) → NodeId → NodeId → Bool
  | 0, _, _ => false
  | fuel + 1, a, b =>
    let x := t.node a
    let y := t.node b
    let same : Option NodeId × Option NodeId → Bool
      | (some a, some b) => sameTypeWithin t fuel a b
      | (none, none) => true
      | _ => false
    x.kind == y.kind && x.slots.length == y.slots.length && (x.slots.zip y.slots).all same
      && x.list.length == y.list.length
      && (x.list.zip y.list).all fun (a, b) => sameTypeWithin t fuel a b

/-- Whether two type nodes spell the same type. -/
def sameType (t : SyntaxTree) (a b : NodeId) : Bool := t.sameTypeWithin (t.size + 1) a b

end SyntaxTree

namespace View

def staticType? (v : View) (n : NodeId) : Option TypeDesc := (v.typeOf n).value?

def primitive? (v : View) (n : NodeId) : Option Primitive :=
  (v.staticType? n).bind TypeDesc.primitive?

def isString (v : View) (n : NodeId) : Bool := (v.staticType? n).any TypeDesc.isString

/-- Whether the type of a node is known to inherit from a class. -/
def inherits (v : View) (n : NodeId) (ancestor : String) : Bool := (v.isSubtypeAt n ancestor).isTrue

/-- The class that a type name used at a node is known to denote. -/
def classNamed? (v : View) (n : NodeId) (name : String) : Option String :=
  if Name.isQualified name then some name else (v.visibleType n name).value?

/-- The primitive wrapped by the class that a type name denotes. -/
def wrappedBy? (v : View) (n : NodeId) (name : String) : Option Primitive :=
  (v.classNamed? n name).bind fun q =>
    if Name.startsWith "java.lang." q then Primitive.ofBoxedClass? q else none

def namesClass (v : View) (n : NodeId) (name qualified : String) : Bool :=
  v.classNamed? n name == some qualified

end View

end TreeTidy
