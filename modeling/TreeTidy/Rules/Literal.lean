import TreeTidy.Rules.Binding
import TreeTidy.Rules.Shape
/-! Rules on the spelling of literals. -/
namespace TreeTidy.Rules

open Draft

/-- A literal in the place of a node. -/
def putLiteral (t : SyntaxTree) (n : NodeId) (sort : LiteralSort) (text : String) : Plan :=
  ⟨[.make (.literal sort text) (t.span n) [] []], .replace n (.new 0)⟩

/-- The text without a small `l` at its end. -/
def withoutSmallSuffix? (text : String) : Option String :=
  match text.toList.reverse with
  | 'l' :: rest => some (String.ofList rest.reverse)
  | _ => none

/-- `10l` becomes `10L`. -/
def longLiteralSuffix.planAt (v : View) (n : NodeId) : Option Plan :=
  match v.tree.kind n with
  | .literal .long text =>
    (withoutSmallSuffix? text).map fun digits => putLiteral v.tree n .long (digits ++ "L")
  | _ => none

def longLiteralSuffix : Rule := .ofPlan
  { RuleInfo.ofId "LongLiteralSuffix" with
    externalRefs := [⟨"Sonar", "S818", none⟩]
    tags := ["Literal"]
    description := "Write the `long` suffix as an upper-case `L`" }
  .expression longLiteralSuffix.planAt

/-- Digits with an underscore before every third one from the right, the first of all excepted. -/
def groupInThrees : List Char → List Char
  | [] => []
  | [c] => [c]
  | c :: d :: cs =>
    if (cs.length + 1) % 3 = 0 then c :: '_' :: groupInThrees (d :: cs)
    else c :: groupInThrees (d :: cs)

/-- A plain decimal number of five digits or more, with its digits in groups of three. -/
def groupDigits? (text : String) : Option String :=
  let cs := text.toList
  let digits := cs.takeWhile Char.isDigit
  let suffix := cs.dropWhile Char.isDigit
  if (suffix ≠ [] ∧ suffix ≠ ['l'] ∧ suffix ≠ ['L']) ∨ digits.length < 5
      ∨ digits.head? = some '0' then none
  else some (String.ofList (groupInThrees digits ++ suffix))

/-- `1000000` becomes `1_000_000`. -/
def numericLiteralUnderscores.planAt (v : View) (n : NodeId) : Option Plan :=
  match v.tree.kind n with
  | .literal sort text =>
    if sort == .int || sort == .long then
      (groupDigits? text).map fun grouped => putLiteral v.tree n sort grouped
    else none
  | _ => none

def numericLiteralUnderscores : Rule := .ofPlan
  { RuleInfo.ofId "NumericLiteralUnderscores" with
    externalRefs := [⟨"PMD", "UseUnderscoresInNumericLiterals", none⟩]
    minLevel := 7
    maturity := .draft
    tags := ["Literal"]
    description := "Group the digits of long decimal literals with underscores" }
  .expression numericLiteralUnderscores.planAt

/-- Whether the text is one character that takes one unit of UTF-16, as a character literal does. -/
def isSingleUnit (text : String) : Bool :=
  match text.toList with
  | [c] => decide (c.toNat < 0x10000)
  | _ => false

/-- `s.indexOf("a")` becomes `s.indexOf('a')`. -/
def stringIndexOfChar.planAt (v : View) (n : NodeId) : Option Plan := do
  let t := v.tree
  let c ← t.call? n
  let needle ← c.args.head?
  let receiver ← c.receiver
  let text ← t.stringLiteral? needle
  if !(c.name == "indexOf" || c.name == "lastIndexOf") || 2 < c.args.length
      || !isSingleUnit text || !v.isString receiver then none
  else some (putLiteral t needle .char text)

def stringIndexOfChar : Rule := .ofPlan
  { RuleInfo.ofId "StringIndexOfChar" with
    externalRefs := [⟨"PMD", "UseIndexOfChar", none⟩]
    tags := ["String"]
    description := "Search for a single character with a char literal" }
  .expression stringIndexOfChar.planAt

end TreeTidy.Rules
