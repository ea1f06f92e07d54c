import TreeTidy.Engine.Session
import TreeTidy.Tree.Load
/-! Tidying one source unit by the schedule of its level, with the classes that it states. -/
namespace TreeTidy

/-- A unit after its session. -/
structure Tidied where
  unit : SourceUnit
  outcome : RunOutcome
  events : List Event

/-- Tidies a unit; without enough fuel for a pass there is no result. -/
def SourceUnit.tidy (u : SourceUnit) (table : Timetable) (limits : Limits) (fuel : Nat) :
    Option Tidied :=
  (Session.run (table.scheduleAt u.level).rules (Resolver.ofClasses u.classes) limits fuel
    u.tree).map fun r => ⟨{ u with tree := r.tree }, r.outcome, r.events⟩

/-! Listings for readers: the rules of a catalog, a schedule, and what was done to a unit. -/

/-- A line of named values, if there are any. -/
def valueLine (label : String) : List String → String
  | [] => ""
  | values => "    " ++ label ++ ": " ++ ", ".intercalate values ++ "\n"

/-- The lines about a rule. -/
def RuleInfo.listing (r : RuleInfo) : String :=
  r.id ++ " (level " ++ toString r.minLevel ++ "+" ++ (if r.isDraft then ", draft" else "") ++ ")\n"
    ++ (if r.description.isEmpty then "" else "    " ++ r.description ++ "\n")
    ++ valueLine "tags" r.tags
    ++ valueLine "refs" (r.externalRefs.map ExternalRef.text)
    ++ valueLine "aliases" r.aliases

def Bundle.listing (b : Bundle) : String :=
  "  " ++ b.id ++ " (" ++ toString b.members.length ++ " rules): " ++ b.description ++ "\n"

/-- The rules and bundles of a catalog; drafts only on demand. -/
def Catalog.listing (c : Catalog) (drafts : Bool) : String :=
  let rules := (c.rules.map Rule.info).filter fun r => drafts || !r.isDraft
  let bundles :=
    if c.bundles.isEmpty then ""
    else "\nbundles:\n" ++ String.join (c.bundles.map Bundle.listing)
  String.join (rules.map RuleInfo.listing) ++ bundles

/-- A number at the right of a column. -/
def alignRight (width n : Nat) : String :=
  let digits := toString n
  String.ofList (List.replicate (width - digits.length) ' ') ++ digits

/-- The rules in the order in which they run, and the lints. -/
def Schedule.listing (s : Schedule) : String :=
  String.join (s.ids.zipIdx.map fun (id, i) => alignRight 3 (i + 1) ++ ". " ++ id ++ "\n")
    ++ String.join (s.lints.map fun l => "warning: " ++ l.text ++ "\n")

/-- What was done to a unit, by rule, and what went wrong. -/
def Tidied.summary (r : Tidied) : String :=
  r.unit.path ++ ": " ++ toString r.outcome.applied ++ " rewrite(s) in "
    ++ toString r.outcome.passes ++ " pass(es), "
    ++ (if r.outcome.converged then "converged" else "not converged") ++ "\n"
    ++ String.join ((Event.appliedByRule r.events).map fun (rule, n) =>
      "  " ++ rule ++ ": " ++ toString n ++ "\n")
    ++ String.join ((Event.problems r.events).map fun e => "  " ++ e.text ++ "\n")

end TreeTidy
