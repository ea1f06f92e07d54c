import TreeTidy.Resolve.Scope
/-!
Types of nodes. A type that the unit states wins; otherwise the type follows from the kind of the
node and the types of other nodes, which an `ask` supplies. Asking may have effects, such as keeping
the answers, so the rules are written over any monad.
-/
namespace TreeTidy

namespace TypeDesc

/-- The type in which a numeric operand is computed. -/
def promoted? (t : TypeDesc) : Option Primitive :=
  match t.unboxed? with
  | some p =>
    if !p.isNumeric then none
    else match p with
      | .byte | .short | .char => some .int
      | p => some p
  | none => none

/-- How wide a promoted type is. -/
def width : Primitive → Nat
  | .double => 3
  | .float => 2
  | .long => 1
  | _ => 0

/-- The type in which two numeric operands are computed together. -/
def promotedWith? (a b : TypeDesc) : Option Primitive :=
  match a.promoted?, b.promoted? with
  | some p, some q => some (if width q ≤ width p then p else q)
  | _, _ => none

def ofLiteral : LiteralSort → TypeDesc
  | .int => int
  | .long => primitive .long
  | .float => primitive .float
  | .double => primitive .double
  | .char => primitive .char
  | .string => string
  | .boolean => boolean
  | .null => null

end TypeDesc

namespace Infer

variable {m : Type → Type} [Monad m]

/-- How the types of other nodes are found. -/
abbrev Ask (m : Type → Type) := NodeId → m (Resolution TypeDesc)

def ofPromoted (p : Option Primitive) : Resolution TypeDesc := .ofOption (p.map .primitive)

def slotType (t : SyntaxTree) (ask : Ask m) (n : NodeId) (i : Nat) : m (Resolution TypeDesc) :=
  match t.slot? n i with
  | some c => ask c
  | none => pure .unknown

/-- The qualified name of a type name. -/
def qualify (classes : ClassTable) (t : SyntaxTree) (n : NodeId) (name : String) :
    Resolution String :=
  if Name.isQualified name then .resolved name
  else match t.visibleType classes n name with
    | .resolved q => .resolved q
    | _ => .unknown

def unaryType (t : SyntaxTree) (ask : Ask m) (n : NodeId) (op : UnaryOp) :
    m (Resolution TypeDesc) :=
  match op with
  | .not => pure (.resolved .boolean)
  | .preInc | .preDec | .postInc | .postDec => slotType t ask n 0
  | .neg | .plus | .bitNot => do
    let ty ← slotType t ask n 0
    pure (ty.bind fun ty => ofPromoted ty.promoted?)

/-- The result type of an operator on operands whose types are known. -/
def operandsType (op : BinaryOp) (a b : TypeDesc) : Resolution TypeDesc :=
  match op with
  | .shl | .shr | .ushr => ofPromoted a.promoted?
  | .bitAnd | .bitOr | .bitXor =>
    if a.unboxed? = some .boolean ∧ b.unboxed? = some .boolean then .resolved .boolean
    else ofPromoted (a.promotedWith? b)
  | _ => ofPromoted (a.promotedWith? b)

def binaryType (t : SyntaxTree) (ask : Ask m) (n : NodeId) (op : BinaryOp) :
    m (Resolution TypeDesc) :=
  if op.isLogical || op.isEquality || op.isRelational then pure (.resolved .boolean)
  else do
    let a ← slotType t ask n 0
    let b ← slotType t ask n 1
    if op == .add && (a.value?.any TypeDesc.isString || b.value?.any TypeDesc.isString) then
      pure (.resolved .string)
    else match a, b with
      | .resolved a, .resolved b => pure (operandsType op a b)
      | _, _ => pure .unknown

/-- The type of a conditional from the types of its branches. -/
def branchesType : Resolution TypeDesc → Resolution TypeDesc → Resolution TypeDesc
  | .resolved a, .resolved b => if a = b then .resolved a else ofPromoted (a.promotedWith? b)
  | _, _ => .unknown

def isMethod (t : SyntaxTree) (name : String) (n : NodeId) : Bool := t.kind n == .methodDecl name

/-- The result type of a call: of a method that the receiver's class has, or, without a receiver, of
the only method of that name in the class around the call. -/
def callType (classes : ClassTable) (t : SyntaxTree) (ask : Ask m) (n : NodeId) (name : String) :
    m (Resolution TypeDesc) :=
  match t.slot? n 0 with
  | some receiver => do
    let ty ← ask receiver
    match ty.value?.bind TypeDesc.className? with
    | some c => pure (.ofOption ((classes.findMethod? c name).map MethodInfo.returns))
    | none => pure .unknown
  | none =>
    match t.enclosingClass? n with
    | none => pure .unknown
    | some c =>
      match (t.list c).filter (isMethod t name) with
      | [method] => slotType t ask method 1
      | _ => pure .unknown

/-- The types of type arguments; the first one that is not known ends the search. -/
def argTypes (ask : Ask m) : List NodeId → m (Option (List TypeDesc))
  | [] => pure (some [])
  | a :: as => do
    match ← ask a with
    | .resolved ty => do
      let rest ← argTypes ask as
      pure (rest.map (ty :: ·))
    | _ => pure none

def elementType : TypeDesc → Resolution TypeDesc
  | .array e => .resolved e
  | _ => .unknown

def isArray : TypeDesc → Bool
  | .array _ => true
  | _ => false

/-- The type that follows from the kind of a node. -/
def kindType (classes : ClassTable) (t : SyntaxTree) (ask : Ask m) (n : NodeId) :
    m (Resolution TypeDesc) :=
  match t.kind n with
  | .literal sort _ => pure (.resolved (.ofLiteral sort))
  | .nameExpr name =>
    match t.lookupVariable? n name with
    | some d => ask d
    | none => pure .unknown
  | .typeName name => pure ((qualify classes t n name).map .ofClass)
  | .thisExpr =>
    pure (.ofOption ((t.enclosingClass? n).map fun c => .ofClass (t.declaredClassName c)))
  | .paren | .assign _ | .castExpr | .newObject => slotType t ask n 0
  | .unary op => unaryType t ask n op
  | .binary op => binaryType t ask n op
  | .conditional => do
    let a ← slotType t ask n 1
    let b ← slotType t ask n 2
    pure (branchesType a b)
  | .instanceOf => pure (.resolved .boolean)
  | .methodCall name => callType classes t ask n name
  | .fieldAccess name => do
    let ty ← slotType t ask n 0
    pure (if ty.value?.any isArray && name == "length" then .resolved .int else .unknown)
  | .arrayAccess => do
    let ty ← slotType t ask n 0
    pure (ty.bind elementType)
  | .localVar _ | .param _ | .forEach _ => slotType t ask n 0
  | .fieldDecl _ => slotType t ask n 1
  | .primitiveType p => pure (.resolved (.primitive p))
  | .classType name _ => do
    let args ← argTypes ask (t.list n)
    pure ((qualify classes t n name).map fun q => .classType q (args.getD []))
  | .arrayType => do
    let ty ← slotType t ask n 0
    pure (ty.map .array)
  | .varType =>
    match t.parent? n with
    | some p =>
      match t.kind p with
      | .localVar _ => slotType t ask p 1
      | _ => pure .unknown
    | none => pure .unknown
  | _ => pure .unknown

/-- The type of a node, from the types of other nodes. -/
def nodeType (classes : ClassTable) (t : SyntaxTree) (ask : Ask m) (n : NodeId) :
    m (Resolution TypeDesc) :=
  match (t.node n).ty with
  | some ty => pure (.resolved ty)
  | none => kindType classes t ask n

/-- Answers found before. -/
abbrev Answers := List (NodeId × Resolution TypeDesc)

/-- Takes the answer found before, or finds it and keeps it. -/
def kept (find : Ask (StateM Answers)) (n : NodeId) : StateM Answers (Resolution TypeDesc) := do
  match (← get).lookup n with
  | some ty => pure ty
  | none =>
    let ty ← find n
    modify ((n, ty) :: ·)
    pure ty

/-- The type of a node, keeping the answers. No question leads back to itself, so fuel for every node
there is suffices. -/
def typeWithin (classes : ClassTable) (t : SyntaxTree) :
    (fuel : Nat) → Ask (StateM Answers)
  | 0 => fun _ => pure .unknown
  | fuel + 1 => kept (nodeType classes t (typeWithin classes t fuel))

/-- The type of a node without answers from before. -/
def typeOf (classes : ClassTable) (t : SyntaxTree) (n : NodeId) : Resolution TypeDesc :=
  (typeWithin classes t (t.size + 1) n []).1

end Infer

end TreeTidy
