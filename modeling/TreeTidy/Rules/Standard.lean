import TreeTidy.Engine.Session
import TreeTidy.Rules.Comparison
import TreeTidy.Rules.Lambda
import TreeTidy.Rules.Leftover
import TreeTidy.Rules.Literal
import TreeTidy.Rules.Negation
import TreeTidy.Rules.Text
import TreeTidy.Rules.TypeWord
import TreeTidy.Rules.Window
import TreeTidy.Rules.Wrapper
/-! The rules of the library and their bundles. -/
namespace TreeTidy.Rules

def all : List Rule :=
  [doubleNegation, booleanLiteralComparison, negatedComparison, redundantParentheses,
    nullLiteralOnRight, literalsFirstInComparisons, stringIsEmpty, stringToString,
    stringIndexOfChar, stringReplaceAllLiteral, stringFromString, primitiveWrapperInstantiation,
    boxedPrimitiveToString, primitiveObjectsEquals, collectionIsEmpty, optionalNotEmpty,
    streamForEach, longLiteralSuffix, numericLiteralUnderscores, lambdaParenthesesRemoval,
    lambdaReturnsSingleStatement, lambdaIsMethodReference, conditionalAssignmentToTernary,
    unnecessaryLocalBeforeReturn, simplifyBooleanReturn, emptyStatement,
    localVariableTypeInference, useDiamondOperator, unnecessaryModifier, removeExplicitSuperCall,
    unnecessaryImport, unnecessaryFullyQualifiedName]

/-- Whether not every team agrees with what the rule makes. -/
def isControversial (r : RuleInfo) : Bool := r.hasTag "Controversial"

def bundles : List BundleSpec :=
  [⟨"SafeAndConsensual", "Production rules nobody objects to",
      .matching fun r => !r.isDraft && !isControversial r⟩,
    ⟨"SafeButControversial", "Production rules that are safe but a matter of taste",
      .matching fun r => !r.isDraft && isControversial r⟩,
    ⟨"AllIncludingDraft", "Every rule, drafts included", .matching fun _ => true⟩]

def catalog? : Except CatalogError Catalog := Catalog.build all bundles

end TreeTidy.Rules
