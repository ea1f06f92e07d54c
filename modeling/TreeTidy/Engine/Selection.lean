import TreeTidy.Engine.Catalog
/-!
Selections of rules. Without a list of rules to take, every production rule is taken; a rule that is
named, itself or by a bundle, is taken even as a draft. Rules above the level are never taken.
-/
namespace TreeTidy

inductive ScheduleError
  | cycle (rules : List String)
  | unknownRule (id : String)
  deriving DecidableEq, Repr

def ScheduleError.message : ScheduleError → String
  | cycle rules => "ordering constraints form a cycle: " ++ ", ".intercalate rules
  | unknownRule id => "unknown rule or bundle `" ++ id ++ "`"

structure Selection where
  /-- Names of rules or bundles to take. -/
  taken : List String
  /-- If there are any, a rule has to carry one of them. -/
  tags : List String
  /-- Names of rules or bundles to leave out. -/
  leftOut : List String
  /-- Takes drafts without their being named. -/
  drafts : Bool
  level : Level
  deriving DecidableEq, Repr

namespace Selection

def standard : Selection := ⟨[], [], [], false, .standard⟩

/-- The ids of the rules that a name stands for. -/
def expand (c : Catalog) (name : String) : Except ScheduleError (List String) :=
  match c.canonical? name with
  | some id => .ok [id]
  | none =>
    match c.bundle? name with
    | some b => .ok b.members
    | none => .error (.unknownRule name)

def expandAll (c : Catalog) (names : List String) : Except ScheduleError (List String) := do
  let ids ← names.mapM (expand c)
  pure ids.flatten

/-- Whether a rule among the candidates is active. -/
def admits (s : Selection) (named : List String) (r : RuleInfo) : Bool :=
  (!r.isDraft || s.drafts || named.contains r.id)
    && decide (r.minLevel ≤ s.level)
    && (s.tags.isEmpty || s.tags.any r.hasTag)

/-- The ids of the active rules, in order. -/
def resolve (s : Selection) (c : Catalog) : Except ScheduleError (List String) := do
  let named ← expandAll c s.taken
  let excluded ← expandAll c s.leftOut
  let candidates := if s.taken.isEmpty then c.rules.map Rule.id else named
  pure ((sortedSet candidates).filter fun id =>
    !excluded.contains id && (c.get? id).any fun r => s.admits named r.info)

end Selection

end TreeTidy
