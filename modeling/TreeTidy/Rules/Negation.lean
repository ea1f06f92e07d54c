import TreeTidy.Rules.Binding
import TreeTidy.Rules.Shape
/-!
Rules that take negations away, doubled ones and those of a test that has a counterpart, and parentheses
that group nothing.
-/
namespace TreeTidy.Rules

open Draft

/-- `!(!x)` becomes `x`. -/
def doubleNegation.planAt (v : View) (n : NodeId) : Option Plan := do
  let t := v.tree
  let inner ← t.negatedOperand? n
  let operand ← t.negatedOperand? inner
  some (plan (putAt t n (keep t operand)))

def doubleNegation : Rule := .ofPlan
  { RuleInfo.ofId "DoubleNegation" with
    externalRefs := [⟨"Sonar", "S2761", none⟩]
    tags := ["Boolean"]
    repetition := .untilNoMatch
    before := ["NegatedComparison"]
    description := "Remove doubled logical negations" }
  .expression doubleNegation.planAt

/-- Whether both operands have a type of whole numbers; other ordered comparisons do not turn around
when an operand is not a number. -/
def areIntegral (v : View) (a b : NodeId) : Bool :=
  (v.primitive? a).any Primitive.isIntegral && (v.primitive? b).any Primitive.isIntegral

/-- `!(a == b)` becomes `a != b`; an ordered comparison does so on whole numbers only. -/
def negatedComparison.planAt (v : View) (n : NodeId) : Option Plan := do
  let t := v.tree
  let comparison ← t.negatedOperand? n
  match t.kind comparison with
  | .binary op =>
    let negated ← op.negated?
    let a ← t.slot? comparison 0
    let b ← t.slot? comparison 1
    if op.isRelational && !areIntegral v a b then none
    else some (plan do
      let a ← copy t a
      let b ← copy t b
      let folded ← join negated a b
      putAt t n folded)
  | _ => none

def negatedComparison : Rule := .ofPlan
  { RuleInfo.ofId "NegatedComparison" with
    externalRefs := [⟨"Sonar", "S1940", none⟩]
    tags := ["Boolean"]
    after := ["DoubleNegation"]
    description := "Fold a negation into the comparison it negates" }
  .expression negatedComparison.planAt

/-- The receiver of a presence test and the test that says the opposite. -/
def presenceTest? (t : SyntaxTree) (n : NodeId) : Option (NodeId × String) :=
  match t.nullaryCall? n "isPresent" with
  | some receiver => some (receiver, "isEmpty")
  | none => (t.nullaryCall? n "isEmpty").map fun receiver => (receiver, "isPresent")

/-- `!o.isPresent()` becomes `o.isEmpty()`, and the other way round. -/
def optionalNotEmpty.planAt (v : View) (n : NodeId) : Option Plan := do
  let t := v.tree
  let operand ← t.negatedOperand? n
  let (receiver, opposite) ← presenceTest? t operand
  if !v.inherits receiver "java.util.Optional" then none
  else some (plan do
    let test ← callOnCopy t receiver opposite
    putAt t n test)

def optionalNotEmpty : Rule := .ofPlan
  { RuleInfo.ofId "OptionalNotEmpty" with
    minLevel := 11
    tags := ["Optional"]
    description := "Replace a negated `isPresent()`/`isEmpty()` with its counterpart" }
  .expression optionalNotEmpty.planAt

/-- Expressions that need no parentheses in any place. -/
def isPrimary : NodeKind → Bool
  | .paren | .nameExpr _ | .typeName _ | .thisExpr | .literal _ _ | .methodCall _ | .fieldAccess _
  | .arrayAccess | .newObject | .methodRef _ => true
  | _ => false

/-- `((x))` becomes `(x)`, `(a.b())` becomes `a.b()`. -/
def redundantParentheses.planAt (v : View) (n : NodeId) : Option Plan := do
  let t := v.tree
  match t.kind n with
  | .paren =>
    let inner ← t.slot? n 0
    if isPrimary (t.kind inner) then some ⟨[], .replace n (.old inner)⟩ else none
  | _ => none

def redundantParentheses : Rule := .ofPlan
  { RuleInfo.ofId "RedundantParentheses" with
    externalRefs := [⟨"PMD", "UselessParentheses", none⟩]
    repetition := .untilNoMatch
    description := "Remove parentheses around primaries and doubled parentheses" }
  .expression redundantParentheses.planAt

end TreeTidy.Rules
