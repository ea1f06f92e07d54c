import TreeTidy.Engine.Rule
/-!
Catalogs of rules and bundles. The ids of rules, their other names and the ids of bundles are all
different, and constraints and bundles name rules of the catalog. A built catalog is sorted by id and
names rules by their ids only.
-/
namespace TreeTidy

inductive CatalogError
  | duplicateId (id : String)
  | unknownOrderingTarget (rule target : String)
  | unknownBundleMember (bundle rule : String)
  deriving DecidableEq, Repr

def CatalogError.message : CatalogError → String
  | duplicateId id => "duplicate rule id `" ++ id ++ "`"
  | unknownOrderingTarget rule target =>
    "rule `" ++ rule ++ "` has an ordering constraint on unknown rule `" ++ target ++ "`"
  | unknownBundleMember bundle rule => "bundle `" ++ bundle ++ "` names unknown rule `" ++ rule ++ "`"

/-- A named group of rules. -/
structure Bundle where
  id : String
  description : String
  members : List String
  deriving DecidableEq, Repr

inductive BundleMembers
  | listed (names : List String)
  | matching (filter : RuleInfo → Bool)

structure BundleSpec where
  id : String
  description : String
  members : BundleMembers

structure Catalog where
  rules : List Rule
  bundles : List Bundle

/-- The strings in order, each once. -/
def sortedSet (ids : List String) : List String :=
  (ids.mergeSort fun a b => decide (a ≤ b)).eraseDups

/-- The first of the names that was taken before, by the given ones or earlier ones of the list. -/
def firstRepeat? (taken : List String) : List String → Option String
  | [] => none
  | name :: names => if taken.contains name then some name else firstRepeat? (name :: taken) names

/-- The rule that answers to a name. -/
def ruleNamed? (rules : List Rule) (name : String) : Option Rule :=
  rules.find? (·.info.answersTo name)

/-- The ids of the rules that constraints of a rule name, each once. -/
def resolveTargets (rules : List Rule) (rule : String) (targets : List String) :
    Except CatalogError (List String) := do
  let ids ← targets.mapM fun target =>
    match ruleNamed? rules target with
    | some r => .ok r.id
    | none => .error (.unknownOrderingTarget rule target)
  pure ids.eraseDups

/-- A rule with its constraints on ids. -/
def resolveRule (rules : List Rule) (r : Rule) : Except CatalogError Rule := do
  let after ← resolveTargets rules r.id r.info.after
  let before ← resolveTargets rules r.id r.info.before
  pure { r with info := { r.info with after := after, before := before } }

def resolveMembers (rules : List Rule) (bundle : String) :
    BundleMembers → Except CatalogError (List String)
  | .listed names => do
    let ids ← names.mapM fun name =>
      match ruleNamed? rules name with
      | some r => .ok r.id
      | none => .error (.unknownBundleMember bundle name)
    pure (sortedSet ids)
  | .matching filter => .ok (sortedSet ((rules.filter fun r => filter r.info).map Rule.id))

/-- The bundles, given the names that are taken. -/
def resolveBundles (rules : List Rule) :
    (taken : List String) → List BundleSpec → Except CatalogError (List Bundle)
  | _, [] => .ok []
  | taken, b :: specs =>
    if taken.contains b.id then .error (.duplicateId b.id)
    else do
      let members ← resolveMembers rules b.id b.members
      let rest ← resolveBundles rules (b.id :: taken) specs
      pure (⟨b.id, b.description, members⟩ :: rest)

namespace Catalog

def build (rules : List Rule) (bundles : List BundleSpec) : Except CatalogError Catalog := do
  let sorted := rules.mergeSort fun a b => decide (a.id ≤ b.id)
  let names := sorted.map Rule.id ++ sorted.flatMap fun r => r.info.aliases
  match firstRepeat? [] names with
  | some id => throw (.duplicateId id)
  | none =>
    let resolved ← sorted.mapM (resolveRule sorted)
    let bundles ← resolveBundles sorted names bundles
    pure ⟨resolved, bundles.mergeSort fun a b => decide (a.id ≤ b.id)⟩

/-- The rule that answers to a name. -/
def get? (c : Catalog) (name : String) : Option Rule := ruleNamed? c.rules name

/-- The id of the rule that answers to a name. -/
def canonical? (c : Catalog) (name : String) : Option String := (c.get? name).map Rule.id

def bundle? (c : Catalog) (id : String) : Option Bundle := c.bundles.find? (·.id == id)

end Catalog

end TreeTidy
