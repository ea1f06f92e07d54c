import TreeTidy.Rules.Binding
import TreeTidy.Rules.Shape
/-!
Rules on lambdas and what they are passed to. Braces go before method references are looked for, so a
body `{ return x.m(); }` can become a reference in one pass.
-/
namespace TreeTidy.Rules

open Draft

def isLambda : NodeKind → Bool
  | .lambda _ => true
  | _ => false

/-- `(x) -> e` becomes `x -> e`. -/
def lambdaParenthesesRemoval.planAt (v : View) (n : NodeId) : Option Plan := do
  let t := v.tree
  match t.kind n, t.list n with
  | .lambda true, [param] =>
    if (t.slot? param 0).isSome then none
    else
      let body ← t.slot? n 0
      some (plan do
        let body ← copy t body
        let param ← copy t param
        let bare ← make (.lambda false) (t.span n) [body] [param]
        pure (.replace n bare.ref))
  | _, _ => none

def lambdaParenthesesRemoval : Rule := .ofPlan
  { RuleInfo.ofId "LambdaParenthesesRemoval" with
    externalRefs := [⟨"Sonar", "S1611", none⟩]
    minLevel := 8
    tags := ["Lambda"]
    description := "Drop the parentheses around a single untyped lambda parameter" }
  .expression lambdaParenthesesRemoval.planAt

/-- Whether an expression may stand as a statement. -/
def isStatementExpr : NodeKind → Bool
  | .methodCall _ | .assign _ | .newObject => true
  | .unary op => op.writesOperand
  | _ => false

/-- The expression that a lambda body of one statement amounts to. -/
def bodyExpr? (t : SyntaxTree) (stmt : NodeId) : Option NodeId :=
  match t.kind stmt with
  | .returnStmt => t.slot? stmt 0
  | .exprStmt => (t.slot? stmt 0).filter fun e => isStatementExpr (t.kind e)
  | _ => none

/-- `x -> { return e; }` becomes `x -> e`, `x -> { f(x); }` becomes `x -> f(x)`. -/
def lambdaReturnsSingleStatement.planAt (v : View) (n : NodeId) : Option Plan := do
  let t := v.tree
  if !isLambda (t.kind n) then none
  else
    let body ← t.slot? n 0
    match t.kind body, t.list body with
    | .block, [stmt] => (bodyExpr? t stmt).map fun e => ⟨[], .replace body (.old e)⟩
    | _, _ => none

def lambdaReturnsSingleStatement : Rule := .ofPlan
  { RuleInfo.ofId "LambdaReturnsSingleStatement" with
    externalRefs := [⟨"Sonar", "S1602", none⟩]
    minLevel := 8
    tags := ["Lambda"]
    before := ["LambdaIsMethodReference"]
    description := "Use an expression body for lambdas holding a single statement" }
  .expression lambdaReturnsSingleStatement.planAt

/-- The written class and the method of `(C x) -> x.m()`. -/
def referenceParts? (t : SyntaxTree) (n : NodeId) : Option (NodeId × String × String) := do
  if !isLambda (t.kind n) then none
  else
    match t.list n with
    | [param] =>
      let ty ← t.slot? param 0
      let body ← t.slot? n 0
      let c ← t.call? body
      let receiver ← c.receiver
      match t.kind param, c.args, t.kind receiver, t.kind ty with
      | .param x, [], .nameExpr y, .classType cls _ => if x = y then some (ty, cls, c.name) else none
      | _, _, _, _ => none
    | _ => none

/-- `(String s) -> s.trim()` becomes `String::trim`. The parameter has to state a type that is known
to be a class. -/
def lambdaIsMethodReference.planAt (v : View) (n : NodeId) : Option Plan := do
  let t := v.tree
  let (ty, cls, method) ← referenceParts? t n
  if ((v.staticType? ty).bind TypeDesc.className?).isNone then none
  else some (plan do
    let qualifier ← make (.typeName cls) (t.span n) [] []
    let reference ← make (.methodRef method) (t.span n) [qualifier] []
    pure (.replace n reference.ref))

def lambdaIsMethodReference : Rule := .ofPlan
  { RuleInfo.ofId "LambdaIsMethodReference" with
    externalRefs := [⟨"Sonar", "S1612", none⟩, ⟨"PMD", "LambdaCanBeMethodReference", none⟩]
    minLevel := 8
    tags := ["Lambda"]
    after := ["LambdaReturnsSingleStatement"]
    description := "Replace `x -> x.m()` with a method reference" }
  .expression lambdaIsMethodReference.planAt

/-- `c.stream().forEach(f)` becomes `c.forEach(f)`. -/
def streamForEach.planAt (v : View) (n : NodeId) : Option Plan := do
  let t := v.tree
  let c ← t.call? n
  let stream ← c.receiver
  match c.name == "forEach", c.args with
  | true, [action] =>
    let source ← t.nullaryCall? (t.stripParens stream) "stream"
    if !v.inherits source "java.util.Collection" then none
    else some (plan do
      let source ← copy t source
      let action ← copy t action
      let call ← make (.methodCall "forEach") (t.span n) [source] [action]
      pure (.replace n call.ref))
  | _, _ => none

def streamForEach : Rule := .ofPlan
  { RuleInfo.ofId "StreamForEach" with
    minLevel := 8
    tags := ["Collection"]
    description := "Iterate collections directly instead of through a stream" }
  .expression streamForEach.planAt

end TreeTidy.Rules
