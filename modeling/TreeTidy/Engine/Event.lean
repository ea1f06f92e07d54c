import TreeTidy.Tree.Basic
/-! Events of a session, in the order in which they happened, and their summaries. -/
namespace TreeTidy

inductive EventKind
  /-- The rule changed the tree. -/
  | applied
  /-- An edit of the rule did not apply. -/
  | rejected (edit : String)
  /-- A repeating rule still matched when its attempts at one place were used up. -/
  | retryCapReached (attempts : Nat)
  /-- The rule broke off and is not used any more. -/
  | panicked (message : String)
  /-- All passes were used up and another would still change the tree. -/
  | nonConverged (passes : Nat)
  deriving DecidableEq, Repr

structure Event where
  /-- Counts from 1; 0 for events of the whole session. -/
  pass : Nat
  rule : Option String
  node : Option NodeId
  span : Span
  kind : EventKind
  deriving DecidableEq, Repr

namespace Event

def kindText (span : Span) : EventKind → String
  | .applied => "applied at " ++ span.text
  | .rejected edit => edit ++ " rejected at " ++ span.text
  | .retryCapReached attempts =>
    "still matching after " ++ toString attempts ++ " attempts at " ++ span.text
  | .panicked message => "panicked at " ++ span.text ++ " (" ++ message ++ "); rule disabled"
  | .nonConverged passes => "did not converge within " ++ toString passes ++ " pass(es)"

def text (e : Event) : String :=
  (if 0 < e.pass then "pass " ++ toString e.pass ++ ": " else "")
    ++ (match e.rule with | some r => r ++ ": " | none => "")
    ++ kindText e.span e.kind

/-- The rule of an event that says that a rule was applied. -/
def appliedRule? (e : Event) : Option String :=
  match e.kind with
  | .applied => e.rule
  | _ => none

/-- How often each rule was applied, in the order of the rule names. -/
def appliedByRule (events : List Event) : List (String × Nat) :=
  let rules := events.filterMap appliedRule?
  (rules.eraseDups.mergeSort fun a b => decide (a ≤ b)).map fun r => (r, rules.count r)

/-- The events that say anything but that a rule was applied. -/
def problems (events : List Event) : List Event := events.filter fun e => e.kind != .applied

end Event

end TreeTidy
