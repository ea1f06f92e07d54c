import TreeTidy.Rules.Binding
import TreeTidy.Rules.Shape
/-!
Rules on comparisons: tests for equality against boolean literals, with `null` and between primitives,
and tests for emptiness.
-/
namespace TreeTidy.Rules

open Draft

/-- The operand that a comparison holds against a boolean literal, and the literal. -/
def literalComparison? (t : SyntaxTree) (a b : NodeId) : Option (NodeId × Bool) :=
  match t.booleanLiteral? (t.stripParens a), t.booleanLiteral? (t.stripParens b) with
  | _, some literal => some (a, literal)
  | some literal, none => some (b, literal)
  | none, none => none

/-- `b == true` becomes `b` and `b == false` becomes `!b`, for a primitive `b`. A boxed `b` may be
`null`, which the comparison tells and `b` alone may not. -/
def booleanLiteralComparison.planAt (v : View) (n : NodeId) : Option Plan := do
  let t := v.tree
  match t.kind n with
  | .binary op =>
    if !op.isEquality then none
    else do
      let a ← t.slot? n 0
      let b ← t.slot? n 1
      let (operand, literal) ← literalComparison? t a b
      if v.primitive? operand ≠ some .boolean then none
      else if (op == .eq) == literal then some (plan (putAt t n (keep t operand)))
      else some (plan do
        let operand ← copy t operand
        let negated ← negate operand
        putAt t n negated)
  | _ => none

def booleanLiteralComparison : Rule := .ofPlan
  { RuleInfo.ofId "BooleanLiteralComparison" with
    aliases := ["SimplifyBooleanExpression"]
    externalRefs := [⟨"PMD", "SimplifyBooleanExpressions", none⟩, ⟨"Sonar", "S1125", none⟩]
    tags := ["Boolean"]
    description := "Drop comparisons of a boolean against a boolean literal" }
  .expression booleanLiteralComparison.planAt

/-- `null == x` becomes `x == null`. -/
def nullLiteralOnRight.planAt (v : View) (n : NodeId) : Option Plan := do
  let t := v.tree
  match t.kind n with
  | .binary op =>
    let a ← t.slot? n 0
    let b ← t.slot? n 1
    if !op.isEquality || !t.isNullLiteral (t.stripParens a)
        || t.isNullLiteral (t.stripParens b) then none
    else some (plan do
      let a ← copy t a
      let b ← copy t b
      let swapped ← join op b a
      putAt t n swapped)
  | _ => none

def nullLiteralOnRight : Rule := .ofPlan
  { RuleInfo.ofId "NullLiteralOnRight" with
    tags := ["Controversial"]
    description := "Put the `null` literal on the right of an equality test" }
  .expression nullLiteralOnRight.planAt

/-- `s.equals("lit")` becomes `"lit".equals(s)` for a string `s`. -/
def literalsFirstInComparisons.planAt (v : View) (n : NodeId) : Option Plan := do
  let t := v.tree
  let c ← t.call? n
  let receiver ← c.receiver
  let arg ← c.args.head?
  let literal := t.stripParens arg
  if !(c.isOf "equals" 1 || c.isOf "equalsIgnoreCase" 1)
      || (t.stringLiteral? literal).isNone || t.isLiteral (t.stripParens receiver)
      || !v.isString receiver then none
  else some (plan do
    let literal ← copy t literal
    let arg ← copy t receiver
    let flipped ← make (.methodCall c.name) (t.span n) [literal] [arg]
    pure (.replace n flipped.ref))

def literalsFirstInComparisons : Rule := .ofPlan
  { RuleInfo.ofId "LiteralsFirstInComparisons" with
    externalRefs := [⟨"PMD", "LiteralsFirstInComparisons", none⟩, ⟨"Sonar", "S1132", none⟩]
    tags := ["String", "Controversial"]
    description := "Call `equals` on the string literal instead of the variable" }
  .expression literalsFirstInComparisons.planAt

/-- The receiver of a call on a class, and its two arguments. -/
def staticPair? (t : SyntaxTree) (n : NodeId) (name : String) :
    Option (NodeId × NodeId × NodeId) := do
  let c ← t.call? n
  let receiver ← c.receiver
  match c.name == name, c.args with
  | true, [a, b] => some (receiver, a, b)
  | _, _ => none

/-- Whether both operands have one primitive type whose values `==` compares. -/
def areComparable (v : View) (a b : NodeId) : Bool :=
  match v.primitive? a with
  | some p => (p.isIntegral || p == .boolean) && v.primitive? b == some p
  | none => false

/-- `Objects.equals(a, b)` becomes `a == b` for whole numbers and booleans. -/
def primitiveObjectsEquals.planAt (v : View) (n : NodeId) : Option Plan := do
  let t := v.tree
  let (receiver, a, b) ← staticPair? t n "equals"
  match t.kind receiver with
  | .typeName name =>
    if !v.namesClass receiver name "java.util.Objects" || !areComparable v a b then none
    else some (plan do
      let a ← copy t a
      let b ← copy t b
      let equal ← join .eq a b
      putAt t n equal)
  | _ => none

def primitiveObjectsEquals : Rule := .ofPlan
  { RuleInfo.ofId "PrimitiveObjectsEquals" with
    tags := ["Boxing"]
    description := "Compare primitives with `==` instead of `Objects.equals`" }
  .expression primitiveObjectsEquals.planAt

/-! Rules that ask for emptiness by name instead of by a count. -/

/-- A test by `isEmpty()` in the place of a node, negated where the node asks for the contrary. -/
def putEmptinessTest (t : SyntaxTree) (n receiver : NodeId) (empty : Bool) : Plan :=
  plan do
    let test ← callOnCopy t receiver "isEmpty"
    let test ← if empty then pure test else negate test
    putAt t n test

/-- `s.length() == 0` becomes `s.isEmpty()`, `s.length() > 0` becomes `!s.isEmpty()`. -/
def stringIsEmpty.planAt (v : View) (n : NodeId) : Option Plan := do
  let (receiver, empty) ← v.tree.emptinessTest? n "length"
  if v.isString receiver then some (putEmptinessTest v.tree n receiver empty) else none

def stringIsEmpty : Rule := .ofPlan
  { RuleInfo.ofId "StringIsEmpty" with
    minLevel := 6
    tags := ["String"]
    description := "Test strings for emptiness with `isEmpty()`" }
  .expression stringIsEmpty.planAt

/-- Whether a node is known to be a collection or a map. -/
def isSized (v : View) (n : NodeId) : Bool :=
  v.inherits n "java.util.Collection" || v.inherits n "java.util.Map"

/-- `c.size() == 0` becomes `c.isEmpty()`, `c.size() != 0` becomes `!c.isEmpty()`. -/
def collectionIsEmpty.planAt (v : View) (n : NodeId) : Option Plan := do
  let (receiver, empty) ← v.tree.emptinessTest? n "size"
  if isSized v receiver then some (putEmptinessTest v.tree n receiver empty) else none

def collectionIsEmpty : Rule := .ofPlan
  { RuleInfo.ofId "CollectionIsEmpty" with
    externalRefs := [⟨"PMD", "UseCollectionIsEmpty", none⟩, ⟨"Sonar", "S1155", none⟩]
    tags := ["Collection"]
    description := "Test collections and maps for emptiness with `isEmpty()`" }
  .expression collectionIsEmpty.planAt

end TreeTidy.Rules
