import TreeTidy.Rules.Binding
import TreeTidy.Rules.Shape
/-! Rules that write types shorter: inferred, with inferred arguments, or by their simple name. -/
namespace TreeTidy.Rules

open Draft

def isClassType : NodeKind → Bool
  | .classType _ _ => true
  | _ => false

def isLocal : NodeKind → Bool
  | .localVar _ => true
  | _ => false

/-- `T x = new T();` becomes `var x = new T();`. -/
def localVariableTypeInference.planAt (v : View) (n : NodeId) : Option Plan := do
  let t := v.tree
  if !isLocal (t.kind n) then none
  else
    let declared ← t.slot? n 0
    let value ← t.slot? n 1
    if !isClassType (t.kind declared) || t.kind value ≠ .newObject then none
    else
      let created ← t.slot? value 0
      if t.sameType declared created then
        some ⟨[.make .varType (t.span declared) [] []], .replace declared (.new 0)⟩
      else none

def localVariableTypeInference : Rule := .ofPlan
  { RuleInfo.ofId "LocalVariableTypeInference" with
    externalRefs := [⟨"Sonar", "S6212", none⟩]
    minLevel := 10
    maturity := .draft
    tags := ["Declaration"]
    before := ["UseDiamondOperator"]
    description := "Declare locals initialized with `new` of the same type as `var`" }
  .statement localVariableTypeInference.planAt

/-- The declared type and the value of a variable or a field. -/
def declaration? (t : SyntaxTree) (n : NodeId) : Option (NodeId × NodeId) := do
  let (typeSlot, valueSlot) ← match t.kind n with
    | .localVar _ => some (0, 1)
    | .fieldDecl _ => some (1, 2)
    | _ => none
  let declared ← t.slot? n typeSlot
  let value ← t.slot? n valueSlot
  pure (declared, value)

/-- Whether a type is written with type arguments. -/
def isParameterized (t : SyntaxTree) (n : NodeId) : Bool :=
  isClassType (t.kind n) && !(t.list n).isEmpty

/-- `new ArrayList<String>()` becomes `new ArrayList<>()` as the value of a declaration that states
type arguments. -/
def useDiamondOperator.planAt (v : View) (n : NodeId) : Option Plan := do
  let t := v.tree
  let (declared, value) ← declaration? t n
  if !isParameterized t declared || t.kind value ≠ .newObject then none
  else
    let created ← t.slot? value 0
    match t.kind created with
    | .classType name _ =>
      if isParameterized t created then
        some ⟨[.make (.classType name true) (t.span created) [] []], .replace created (.new 0)⟩
      else none
    | _ => none

def useDiamondOperator : Rule := .ofPlan
  { RuleInfo.ofId "UseDiamondOperator" with
    externalRefs := [⟨"PMD", "UseDiamondOperator", none⟩, ⟨"Sonar", "S2293", none⟩]
    minLevel := 7
    tags := ["Declaration", "Generics"]
    after := ["LocalVariableTypeInference"]
    description := "Let the compiler infer type arguments of `new` in initializers" }
  .node useDiamondOperator.planAt

/-- Whether the simple name of a qualified class denotes that class at a node. -/
def isVisibleAs (v : View) (n : NodeId) (name : String) : Bool :=
  Name.isQualified name && (v.visibleType n (Name.simpleName name)).value? == some name

/-- `java.util.List<T>` becomes `List<T>` where `List` denotes that class. -/
def unnecessaryFullyQualifiedName.planAt (v : View) (n : NodeId) : Option Plan := do
  let t := v.tree
  match t.kind n with
  | .classType name diamond =>
    if !isVisibleAs v n name then none
    else some (plan do
      let args ← copyAll t (t.list n)
      let short ← make (.classType (Name.simpleName name) diamond) (t.span n) [] args
      pure (.replace n short.ref))
  | .typeName name =>
    if !isVisibleAs v n name then none
    else some (plan do
      let short ← make (.typeName (Name.simpleName name)) (t.span n) [] []
      pure (.replace n short.ref))
  | _ => none

def unnecessaryFullyQualifiedName : Rule := .ofPlan
  { RuleInfo.ofId "UnnecessaryFullyQualifiedName" with
    externalRefs := [⟨"PMD", "UnnecessaryFullyQualifiedName", none⟩]
    tags := ["Import"]
    description := "Use the simple name of a type that is already visible" }
  .node unnecessaryFullyQualifiedName.planAt

end TreeTidy.Rules
