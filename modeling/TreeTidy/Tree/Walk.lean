import TreeTidy.Tree.Basic
/-! Walks: visits of a node and the nodes below it in order, which may pass over parts or stop early. -/
namespace TreeTidy

/-- What to do after a visit. -/
inductive WalkStep
  | descend
  | skip
  | stop
  deriving DecidableEq, Repr

namespace SyntaxTree

/-- Visits the nodes of a list one after the other, until a walk of one stops. -/
def walkAll (walk : NodeId → List NodeId × Bool) : List NodeId → List NodeId × Bool
  | [] => ([], false)
  | n :: ns =>
    let (visited, stopped) := walk n
    if stopped then (visited, true)
    else
      let (later, stopped) := walkAll walk ns
      (visited ++ later, stopped)

/-- The nodes visited to the given depth, and whether the walk was stopped. -/
def walkWithin (t : SyntaxTree) (decision : NodeId → WalkStep) :
    (fuel : Nat) → NodeId → List NodeId × Bool
  | 0, _ => ([], false)
  | fuel + 1, n =>
    match decision n with
    | .stop => ([n], true)
    | .skip => ([n], false)
    | .descend =>
      let (visited, stopped) := walkAll (walkWithin t decision fuel) (t.children n)
      (n :: visited, stopped)

/-- Walks a node and what is below it: the nodes visited, and whether the walk was stopped. -/
def walk (t : SyntaxTree) (decision : NodeId → WalkStep) (n : NodeId) : List NodeId × Bool :=
  t.walkWithin decision (t.size + 1) n

/-- Walks from the root; a tree without a root has nothing to visit. -/
def walkRoot (t : SyntaxTree) (decision : NodeId → WalkStep) : List NodeId × Bool :=
  match t.root with
  | some r => t.walk decision r
  | none => ([], false)

/-- Whether a node or one below it is of a kind with the property. -/
def anyKind (t : SyntaxTree) (p : NodeKind → Bool) (n : NodeId) : Bool :=
  (t.descendants n).any fun m => p (t.kind m)

end SyntaxTree

end TreeTidy
