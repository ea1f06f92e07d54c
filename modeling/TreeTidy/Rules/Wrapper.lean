import TreeTidy.Rules.Binding
import TreeTidy.Rules.Shape
/-! Rules on the wrapper classes of primitives. -/
namespace TreeTidy.Rules

open Draft

/-- A primitive put into its wrapper class, which is named as it is written. -/
structure Boxing where
  name : String
  primitive : Primitive
  argument : NodeId
  deriving DecidableEq, Repr

/-- `new Integer(x)` -/
def boxingByNew? (v : View) (n : NodeId) : Option Boxing := do
  let t := v.tree
  match t.kind n, t.list n with
  | .newObject, [argument] =>
    let ty ← t.slot? n 0
    match t.kind ty, t.list ty with
    | .classType name _, [] =>
      let p ← v.wrappedBy? ty name
      some ⟨name, p, argument⟩
    | _, _ => none
  | _, _ => none

/-- `Integer.valueOf(x)` -/
def boxingByCall? (v : View) (n : NodeId) : Option Boxing := do
  let t := v.tree
  let c ← t.call? n
  let receiver ← c.receiver
  match c.name == "valueOf", c.args, t.kind receiver with
  | true, [argument], .typeName name =>
    let p ← v.wrappedBy? receiver name
    some ⟨name, p, argument⟩
  | _, _, _ => none

def boxing? (v : View) (n : NodeId) : Option Boxing := (boxingByNew? v n).or (boxingByCall? v n)

/-- A call of a method of the wrapper class on the argument, in the place of a node. -/
def putWrapperCall (t : SyntaxTree) (n : NodeId) (b : Boxing) (method : String) : Plan :=
  plan do
    let cls ← make (.typeName b.name) (t.span n) [] []
    let argument ← copy t b.argument
    let call ← make (.methodCall method) (t.span n) [cls] [argument]
    pure (.replace n call.ref)

/-- `new Integer(x)` becomes `Integer.valueOf(x)`. -/
def primitiveWrapperInstantiation.planAt (v : View) (n : NodeId) : Option Plan :=
  (boxingByNew? v n).map fun b => putWrapperCall v.tree n b "valueOf"

def primitiveWrapperInstantiation : Rule := .ofPlan
  { RuleInfo.ofId "PrimitiveWrapperInstantiation" with
    externalRefs := [⟨"PMD", "PrimitiveWrapperInstantiation", none⟩, ⟨"Sonar", "S2129", none⟩]
    tags := ["Boxing"]
    before := ["BoxedPrimitiveToString"]
    description := "Use `valueOf` instead of the deprecated wrapper constructors" }
  .expression primitiveWrapperInstantiation.planAt

/-- `Integer.valueOf(i).toString()` becomes `Integer.toString(i)`; only an argument of the primitive
type has such a method. -/
def boxedPrimitiveToString.planAt (v : View) (n : NodeId) : Option Plan := do
  let t := v.tree
  let receiver ← t.nullaryCall? n "toString"
  let b ← boxing? v (t.stripParens receiver)
  if v.primitive? b.argument = some b.primitive then some (putWrapperCall t n b "toString")
  else none

def boxedPrimitiveToString : Rule := .ofPlan
  { RuleInfo.ofId "BoxedPrimitiveToString" with
    externalRefs := [⟨"Sonar", "S2131", none⟩]
    tags := ["Boxing"]
    after := ["PrimitiveWrapperInstantiation"]
    description := "Convert primitives to strings without boxing them first" }
  .expression boxedPrimitiveToString.planAt

end TreeTidy.Rules
