import TreeTidy.Engine.Rule
/-!
Plans: what a rule of the library is going to do with a node, decided before anything is done. A plan
lists the nodes to make, in order, and one change that puts them in place. So a rule either changes
the tree by that one change or leaves it as it is.
-/
namespace TreeTidy

/-- A node of the tree, or one that an earlier step makes. -/
inductive Ref
  | old (n : NodeId)
  | new (step : Nat)
  deriving DecidableEq, Repr

/-- The making of one detached node, or of a detached copy. -/
inductive Step
  | copy (n : NodeId)
  | make (kind : NodeKind) (span : Span) (slots : List (Option Ref)) (list : List Ref)
  deriving DecidableEq, Repr

/-- The change that a plan ends with. -/
inductive Commit
  | replace (site : NodeId) (replacement : Ref)
  | remove (site : NodeId)
  | splice (first : NodeId) (count : Nat) (replacement : Ref)
  deriving DecidableEq, Repr

structure Plan where
  steps : List Step
  commit : Commit
  deriving DecidableEq, Repr

namespace Ref

/-- The node meant, given the nodes made so far. -/
def resolve (made : List NodeId) : Ref → NodeId
  | old n => n
  | new i => made.getD i 0

end Ref

namespace Step

/-- Makes the node. -/
def perform (made : List NodeId) : Step → Edit NodeId
  | copy n => Edit.copy n
  | make kind span slots list =>
    Edit.make ⟨kind, span, none, slots.map (Option.map (Ref.resolve made)),
      list.map (Ref.resolve made)⟩

/-- Makes the nodes of all steps, after those made before. -/
def performAll (made : List NodeId) : List Step → Edit (List NodeId)
  | [] => Edit.done made
  | s :: steps => (s.perform made).andThen fun n => performAll (made ++ [n]) steps

end Step

namespace Commit

def change (made : List NodeId) : Commit → Change
  | replace site r => .replace site (r.resolve made)
  | remove site => .remove site
  | splice first count r => .splice first count [r.resolve made]

end Commit

namespace Plan

def perform (p : Plan) : Edit Bool :=
  (Step.performAll [] p.steps).andThen fun made => .change (p.commit.change made) .done

end Plan

/-- A rule that plans. -/
def Rule.ofPlan (info : RuleInfo) (granularity : Granularity)
    (plan : View → NodeId → Option Plan) : Rule where
  info := info
  granularity := granularity
  act := fun n => .look fun v =>
    match plan v n with
    | some p => p.perform
    | none => .done false

/-- A node of a plan under way, with what later decisions need of it. -/
structure Piece where
  ref : Ref
  kind : NodeKind
  span : Span
  deriving DecidableEq, Repr

/-- Plans under way: the steps so far. -/
abbrev Draft := StateM (List Step)

namespace Draft

/-- A node of the tree as it stands. -/
def keep (t : SyntaxTree) (n : NodeId) : Piece := ⟨.old n, t.kind n, t.span n⟩

def copy (t : SyntaxTree) (n : NodeId) : Draft Piece := fun steps =>
  (⟨.new steps.length, t.kind n, t.span n⟩, steps ++ [.copy n])

def make (kind : NodeKind) (span : Span) (slots : List Piece) (list : List Piece) : Draft Piece :=
  fun steps =>
    (⟨.new steps.length, kind, span⟩,
      steps ++ [.make kind span (slots.map fun p => some p.ref) (list.map Piece.ref)])

/-- Copies nodes one after the other. -/
def copyAll (t : SyntaxTree) : List NodeId → Draft (List Piece)
  | [] => pure []
  | n :: ns => do
    let p ← copy t n
    let ps ← copyAll t ns
    pure (p :: ps)

/-- The finished plan. -/
def plan (d : Draft Commit) : Plan :=
  let (commit, steps) := d []
  ⟨steps, commit⟩

end Draft

end TreeTidy
