import TreeTidy.Rules.Binding
import TreeTidy.Rules.Shape
/-! Rules on a statement together with the one after it. -/
namespace TreeTidy.Rules

open Draft

/-- The statement right after one. -/
def following? (t : SyntaxTree) (n : NodeId) : Option NodeId := (t.window? n 2).bind fun w => w[1]?

/-- `if (cond) name = value;` -/
structure GuardedAssign where
  cond : NodeId
  name : String
  value : NodeId
  deriving DecidableEq, Repr

/-- A branch without an alternative that only assigns to a variable. -/
def guardedAssign? (t : SyntaxTree) (n : NodeId) : Option GuardedAssign := do
  if t.kind n ≠ .ifStmt || (t.slot? n 2).isSome then none
  else
    let cond ← t.slot? n 0
    let yes ← t.slot? n 1
    let stmt ← t.singleStatement? yes
    if t.kind stmt ≠ .exprStmt then none
    else
      let assign ← t.slot? stmt 0
      if t.kind assign ≠ .assign .assign then none
      else
        let target ← t.slot? assign 0
        let value ← t.slot? assign 1
        match t.kind target with
        | .nameExpr name => some ⟨cond, name, value⟩
        | _ => none

/-- Whether two expressions are known to have the same type. -/
def haveSameType (v : View) (a b : NodeId) : Bool :=
  (v.staticType? a).isSome && v.staticType? a == v.staticType? b

/-- `T x = a; if (c) x = b;` becomes `T x = c ? b : a;`. Afterwards `a` is computed on fewer ways and
`c` before it, so both have to be free of effects, and neither `b` nor `c` may read `x`. A choice
between different types would convert one of them. -/
def conditionalAssignmentToTernary.planAt (v : View) (n : NodeId) : Option Plan := do
  let t := v.tree
  match t.kind n with
  | .localVar name =>
    let ty ← t.slot? n 0
    let start ← t.slot? n 1
    let branch ← following? t n
    let g ← guardedAssign? t branch
    if g.name ≠ name || !t.isEffectFree start || !t.isEffectFree g.cond
        || t.mentions g.cond name || t.mentions g.value name || !haveSameType v g.value start then
      none
    else some (plan do
      let ty ← copy t ty
      let cond ← copy t g.cond
      let value ← copy t g.value
      let start ← copy t start
      let choice ← choose cond value start
      let decl ← make (.localVar name) ((t.span n).cover (t.span branch)) [ty, choice] []
      pure (.splice n 2 decl.ref))
  | _ => none

def conditionalAssignmentToTernary : Rule := .ofPlan
  { RuleInfo.ofId "ConditionalAssignmentToTernary" with
    tags := ["Statement", "Controversial"]
    description := "Fold a conditional reassignment into the declaration" }
  .statement conditionalAssignmentToTernary.planAt

/-- Whether a declared type does not change the value that it is given. -/
def keepsValue (v : View) (ty value : NodeId) : Bool :=
  match v.primitive? ty with
  | some p => v.primitive? value == some p
  | none => true

/-- `T x = e; return x;` becomes `return e;`. -/
def unnecessaryLocalBeforeReturn.planAt (v : View) (n : NodeId) : Option Plan := do
  let t := v.tree
  match t.kind n with
  | .localVar name =>
    let ty ← t.slot? n 0
    let value ← t.slot? n 1
    let ret ← following? t n
    if t.kind ret ≠ .returnStmt then none
    else
      let returned ← t.slot? ret 0
      if t.kind (t.stripParens returned) ≠ .nameExpr name || !keepsValue v ty value then none
      else some (plan do
        let value ← copy t value
        let direct ← make .returnStmt ((t.span n).cover (t.span ret)) [value] []
        pure (.splice n 2 direct.ref))
  | _ => none

def unnecessaryLocalBeforeReturn : Rule := .ofPlan
  { RuleInfo.ofId "UnnecessaryLocalBeforeReturn" with
    externalRefs := [⟨"PMD", "UnnecessaryLocalBeforeReturn", none⟩, ⟨"Sonar", "S1488", none⟩]
    tags := ["Statement"]
    description := "Return the value directly instead of through a local" }
  .statement unnecessaryLocalBeforeReturn.planAt

/-- The contrary of a condition, taking a negation away if there is one. -/
def contrary (t : SyntaxTree) (cond : NodeId) : Draft Piece :=
  let inner := t.stripParens cond
  match t.kind inner, t.slot? inner 0 with
  | .unary .not, some operand => copy t operand
  | _, _ => do
    let p ← copy t cond
    negate p

/-- `if (c) return true; else return false;` becomes `return c;`, and the same with the literals
exchanged, or with the second return after the branch. -/
def simplifyBooleanReturn.planAt (v : View) (n : NodeId) : Option Plan := do
  let t := v.tree
  match t.kind n with
  | .ifStmt =>
    let cond ← t.slot? n 0
    let yes ← t.slot? n 1
    let whenTrue ← t.returnedBoolean? yes
    let otherwise := t.slot? n 2
    let last ← otherwise.or (following? t n)
    if t.returnedBoolean? last ≠ some (!whenTrue) then none
    else some (plan do
      let value ← if whenTrue then copy t cond else contrary t cond
      let ret ← make .returnStmt ((t.span n).cover (t.span last)) [value] []
      if otherwise.isSome then pure (.replace n ret.ref) else pure (.splice n 2 ret.ref))
  | _ => none

def simplifyBooleanReturn : Rule := .ofPlan
  { RuleInfo.ofId "SimplifyBooleanReturn" with
    externalRefs := [⟨"PMD", "SimplifyBooleanReturns", none⟩, ⟨"Sonar", "S1126", none⟩]
    tags := ["Statement"]
    description := "Return a condition instead of branching to boolean literals" }
  .statement simplifyBooleanReturn.planAt

end TreeTidy.Rules
