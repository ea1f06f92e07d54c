import TreeTidy.Engine.Edit
/-! Rules: what is stated about a rule, which nodes it is offered, and what it does with one. -/
namespace TreeTidy

/-- Whether a rule is used without being asked for. -/
inductive Maturity
  | draft | production
  deriving DecidableEq, Repr

/-- Whether a rule is offered a place again after it changed it. -/
inductive Repetition
  | oncePerPass | untilNoMatch
  deriving DecidableEq, Repr

/-- The same rule in another collection. -/
structure ExternalRef where
  catalog : String
  key : String
  url : Option String
  deriving DecidableEq, Repr

def ExternalRef.text (r : ExternalRef) : String := r.catalog ++ ":" ++ r.key

/-- Which nodes a rule is offered. -/
inductive Granularity
  | expression | statement | node
  deriving DecidableEq, Repr

def Granularity.admits : Granularity → Category → Bool
  | expression, c => c == .expression
  | statement, c => c == .statement
  | node, _ => true

/-- What is stated about a rule. -/
structure RuleInfo where
  id : String
  /-- Other names that the rule answers to. -/
  aliases : List String
  externalRefs : List ExternalRef
  /-- The lowest level that the result of the rule can be used under. -/
  minLevel : Level
  maturity : Maturity
  tags : List String
  repetition : Repetition
  /-- The rules that run before this one. -/
  after : List String
  /-- The rules that run after this one. -/
  before : List String
  description : String
  deriving DecidableEq, Repr

namespace RuleInfo

def ofId (id : String) : RuleInfo :=
  ⟨id, [], [], .baseline, .production, [], .oncePerPass, [], [], ""⟩

def isDraft (r : RuleInfo) : Bool := r.maturity == .draft

def hasTag (r : RuleInfo) (tag : String) : Bool := r.tags.contains tag

def names (r : RuleInfo) : List String := r.id :: r.aliases

def answersTo (r : RuleInfo) (name : String) : Bool := r.names.contains name

end RuleInfo

structure Rule where
  info : RuleInfo
  granularity : Granularity
  /-- Tries the rule on a node; the value is the rule's own report and is not relied on. -/
  act : NodeId → Edit Bool

def Rule.id (r : Rule) : String := r.info.id

end TreeTidy
