import TreeTidy.Rules.Binding
import TreeTidy.Rules.Shape
/-! Rules that drop detours through strings. -/
namespace TreeTidy.Rules

open Draft

/-- `s.toString()` becomes `s` for a string `s`. -/
def stringToString.planAt (v : View) (n : NodeId) : Option Plan := do
  let t := v.tree
  let receiver ← t.nullaryCall? n "toString"
  if v.isString receiver then some (plan (putAt t n (keep t receiver))) else none

def stringToString : Rule := .ofPlan
  { RuleInfo.ofId "StringToString" with
    externalRefs := [⟨"PMD", "StringToString", none⟩]
    tags := ["String"]
    description := "Drop `toString()` calls on strings" }
  .expression stringToString.planAt

/-- Whether a character means something else than itself in a pattern. -/
def isPatternChar (c : Char) : Bool := "\\^$.|?*+()[]\x7b\x7d".toList.contains c

/-- Whether a text stands for itself as a pattern. -/
def isPlainPattern (text : String) : Bool :=
  text ≠ "" && text.toList.all fun c => !isPatternChar c

/-- Whether a text stands for itself as a replacement of a pattern. -/
def isPlainReplacement (text : String) : Bool :=
  text.toList.all fun c => c != '$' && c != '\\'

/-- `s.replaceAll("a", "b")` becomes `s.replace("a", "b")` when no pattern is involved. -/
def stringReplaceAllLiteral.planAt (v : View) (n : NodeId) : Option Plan := do
  let t := v.tree
  let c ← t.call? n
  let receiver ← c.receiver
  match c.name == "replaceAll", c.args with
  | true, [a, b] =>
    let pattern ← t.stringLiteral? (t.stripParens a)
    let replacement ← t.stringLiteral? (t.stripParens b)
    if !isPlainPattern pattern || !isPlainReplacement replacement || !v.isString receiver then
      none
    else some (plan do
      let receiver ← copy t receiver
      let a ← copy t a
      let b ← copy t b
      let call ← make (.methodCall "replace") (t.span n) [receiver] [a, b]
      pure (.replace n call.ref))
  | _, _ => none

def stringReplaceAllLiteral : Rule := .ofPlan
  { RuleInfo.ofId "StringReplaceAllLiteral" with
    externalRefs := [⟨"Sonar", "S5361", none⟩]
    tags := ["String"]
    description := "Use `replace` when `replaceAll` is given no regular expression" }
  .expression stringReplaceAllLiteral.planAt

/-- `new String("lit")` becomes `"lit"`. -/
def stringFromString.planAt (v : View) (n : NodeId) : Option Plan := do
  let t := v.tree
  match t.kind n, t.list n with
  | .newObject, [arg] =>
    let text := t.stripParens arg
    if (t.stringLiteral? text).isSome && v.isString n then
      some (plan (putAt t n (keep t text)))
    else none
  | _, _ => none

def stringFromString : Rule := .ofPlan
  { RuleInfo.ofId "StringFromString" with
    externalRefs := [⟨"PMD", "StringInstantiation", none⟩]
    tags := ["String"]
    description := "Use string literals instead of copying them with `new String`" }
  .expression stringFromString.planAt

end TreeTidy.Rules
