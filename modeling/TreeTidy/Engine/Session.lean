import TreeTidy.Engine.Schedule
/-!
Sessions apply a schedule to one tree, pass after pass. A pass visits the tree from the root down and
offers every node to each rule in turn; a rule that breaks off is not used again. The session ends
with a pass that changes nothing, or when its passes are used up.

Only the revision of the tree tells whether a rule changed it. After a change the place is followed
to the node that is there now; if there is none, the visit of the place ends.
-/
namespace TreeTidy

/-- Limits of a session. -/
structure Limits where
  /-- The number of passes that may change the tree. -/
  passBound : Nat
  /-- How often a repeating rule may change one place in a row. -/
  retryCap : Nat
  deriving DecidableEq, Repr

def Limits.standard : Limits := ⟨10, 16⟩

structure RunOutcome where
  changed : Bool
  /-- Another pass would change nothing. -/
  converged : Bool
  /-- The number of passes that changed the tree. -/
  passes : Nat
  /-- The number of changes by rules. -/
  applied : Nat
  deriving DecidableEq, Repr

namespace Session

/-- What stays the same during a pass. -/
structure Setting where
  rules : List Rule
  resolver : Resolver
  limits : Limits
  pass : Nat

/-- What changes during a pass. -/
structure State where
  tree : SyntaxTree
  /-- The places in the schedule of the rules that broke off. -/
  disabled : List Nat
  events : List Event
  /-- The number of changes by rules in this pass. -/
  applied : Nat

namespace State

def record (s : State) (e : Event) : State := { s with events := s.events ++ [e] }

end State

/-- What came of offering a node to a rule. -/
inductive Attempt
  | noMatch
  | applied
  | failed
  deriving DecidableEq, Repr

/-- Lets a rule try a node. -/
def invoke (c : Setting) (r : Rule) (n : NodeId) (s : State) : Attempt × State :=
  let span := s.tree.span n
  let out := (r.act n).runFrom ⟨c.resolver, r.id, c.pass⟩ s.tree s.events
  let after : State := { s with tree := out.tree, events := out.events }
  match out.value with
  | .error message => (.failed, after.record ⟨c.pass, some r.id, some n, span, .panicked message⟩)
  | .ok _ =>
    if out.tree.revision = s.tree.revision then (.noMatch, after)
    else
      (.applied, { after.record ⟨c.pass, some r.id, some n, span, .applied⟩ with
        applied := s.applied + 1 })

/-- The node that is now where a node was, if that place is still in the tree. -/
def follow (t : SyntaxTree) (n : NodeId) : Option NodeId :=
  (t.successor? n).filter t.isAttached

/-- Offers a place to one rule, again as long as the rule repeats and has attempts left. Gives the
node that is at the place then, or none if the place is gone. -/
def offer (c : Setting) (r : Rule) (index : Nat) :
    (left attempts : Nat) → NodeId → State → Option NodeId × State
  | 0, _, n, s => (some n, s)
  | left + 1, attempts, n, s =>
    if !r.granularity.admits (s.tree.kind n).category then (some n, s)
    else match invoke c r n s with
      | (.noMatch, s) => (some n, s)
      | (.failed, s) => (some n, { s with disabled := index :: s.disabled })
      | (.applied, s) =>
        match follow s.tree n with
        | none => (none, s)
        | some m =>
          if r.info.repetition = .oncePerPass then (some m, s)
          else if c.limits.retryCap ≤ attempts + 1 then
            (some m, s.record
              ⟨c.pass, some r.id, some m, s.tree.span m, .retryCapReached (attempts + 1)⟩)
          else offer c r index left (attempts + 1) m s

/-- Offers a place to the rules from one index of the schedule on. -/
def offerAll (c : Setting) : (index : Nat) → List Rule → NodeId → State → Option NodeId × State
  | _, [], n, s => (some n, s)
  | i, r :: rules, n, s =>
    if s.disabled.contains i then offerAll c (i + 1) rules n s
    else match offer c r i (max c.limits.retryCap 1) 0 n s with
      | (none, s) => (none, s)
      | (some m, s) => offerAll c (i + 1) rules m s

/-- Visits the nodes of a worklist and what is below them. Gives none if the fuel runs out first. -/
def visit (c : Setting) : (fuel : Nat) → (work : List NodeId) → State → Option State
  | _, [], s => some s
  | 0, _ :: _, _ => none
  | fuel + 1, n :: work, s =>
    if !s.tree.isAttached n then visit c fuel work s
    else match offerAll c 0 c.rules n s with
      | (none, s) => visit c fuel work s
      | (some m, s) => visit c fuel (s.tree.children m ++ work) s

/-- One pass over the tree. -/
def pass (c : Setting) (fuel : Nat) (s : State) : Option State :=
  match s.tree.root with
  | none => some { s with applied := 0 }
  | some root => visit c fuel [root] { s with applied := 0 }

/-- The result of a session. -/
structure Result where
  tree : SyntaxTree
  outcome : RunOutcome
  events : List Event

/-- The event that ends a session without convergence. -/
def notConverged (t : SyntaxTree) (passes : Nat) : Event :=
  ⟨0, none, none, (t.root.map t.span).getD Span.none, .nonConverged passes⟩

/-- Whether another pass would change nothing, tried on the tree without keeping the result. -/
def probe (rules : List Rule) (resolver : Resolver) (limits : Limits) (fuel passes : Nat)
    (s : State) : Option Bool :=
  (pass ⟨rules, resolver, limits, passes + 1⟩ fuel s).map fun s => decide (s.applied = 0)

/-- The result of a session whose passes are used up. -/
def finish (rules : List Rule) (resolver : Resolver) (limits : Limits) (fuel : Nat)
    (o : RunOutcome) (s : State) : Option Result :=
  (probe rules resolver limits fuel o.passes s).map fun converged =>
    let events := if converged then s.events else s.events ++ [notConverged s.tree o.passes]
    ⟨s.tree, { o with converged := converged }, events⟩

/-- Passes until one changes nothing or none are left. -/
def runFrom (rules : List Rule) (resolver : Resolver) (limits : Limits) (fuel : Nat) :
    (left : Nat) → RunOutcome → State → Option Result
  | 0, o, s => finish rules resolver limits fuel o s
  | left + 1, o, s =>
    match pass ⟨rules, resolver, limits, o.passes + 1⟩ fuel s with
    | none => none
    | some s =>
      if s.applied = 0 then some ⟨s.tree, { o with converged := true }, s.events⟩
      else
        let o := ⟨true, false, o.passes + 1, o.applied + s.applied⟩
        runFrom rules resolver limits fuel left o s

/-- Runs rules over a tree. The fuel bounds the visits of a pass; without enough there is no result. -/
def run (rules : List Rule) (resolver : Resolver) (limits : Limits) (fuel : Nat) (t : SyntaxTree) :
    Option Result :=
  runFrom rules resolver limits fuel limits.passBound ⟨false, false, 0, 0⟩ ⟨t, [], [], 0⟩

end Session

end TreeTidy
