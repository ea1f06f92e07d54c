import TreeTidy.Engine.Event
import TreeTidy.Resolve.Resolver
import TreeTidy.Tree.Edit
/-!
What a rule can do. A rule is a program over one tree: it may look at everything, make detached nodes,
change the tree by the edits below, and break off. Nothing else is open to it, so facts about edits
carry over to all rules.
-/
namespace TreeTidy

/-- What a rule sees. -/
structure View where
  tree : SyntaxTree
  resolver : Resolver
  rule : String
  pass : Nat

namespace View

def typeOf (v : View) (n : NodeId) : Resolution TypeDesc := v.resolver.typeOf v.tree n

def visibleType (v : View) (n : NodeId) (name : String) : Resolution String :=
  v.resolver.visibleType v.tree n name

def isSubtypeAt (v : View) (n : NodeId) (ancestor : String) : Resolution Bool :=
  v.resolver.isSubtypeAt v.tree n ancestor

end View

/-- A change of the tree below the root. -/
inductive Change
  | replace (old new : NodeId)
  | remove (node : NodeId)
  | insertBefore (anchor new : NodeId)
  | insertAfter (anchor new : NodeId)
  | splice (first : NodeId) (count : Nat) (replacements : List NodeId)
  deriving DecidableEq, Repr

namespace Change

/-- The tree after the change, if it applies. -/
def appliedTo? (t : SyntaxTree) : Change → Option SyntaxTree
  | replace old new => t.replace? old new
  | remove n => t.remove? n
  | insertBefore anchor new => t.insertBefore? anchor new
  | insertAfter anchor new => t.insertAfter? anchor new
  | splice first count replacements => t.splice? first count replacements

/-- The node at which the change is made. -/
def site : Change → NodeId
  | replace old _ => old
  | remove n => n
  | insertBefore anchor _ => anchor
  | insertAfter anchor _ => anchor
  | splice first _ _ => first

def word : Change → String
  | replace _ _ => "replace"
  | remove _ => "remove"
  | insertBefore _ _ | insertAfter _ _ => "insert"
  | splice _ _ _ => "splice"

end Change

/-- A program that edits a tree and gives an `α`, unless it breaks off. -/
inductive Edit (α : Type) : Type
  | done (value : α)
  | broken (message : String)
  | look (next : View → Edit α)
  | create (spec : NodeSpec) (next : Except TreeError NodeId → Edit α)
  | clone (node : NodeId) (next : NodeId → Edit α)
  | change (c : Change) (next : Bool → Edit α)

namespace Edit

variable {α β : Type}

def andThen : Edit α → (α → Edit β) → Edit β
  | done a, f => f a
  | broken m, _ => broken m
  | look next, f => look fun v => andThen (next v) f
  | create s next, f => create s fun r => andThen (next r) f
  | clone n next, f => clone n fun m => andThen (next m) f
  | change c next, f => change c fun b => andThen (next b) f

instance : Monad Edit where
  pure := done
  bind := andThen

/-- What the rule sees now. -/
def view : Edit View := look done

/-- Makes a node; a node that does not fit breaks the program off. -/
def make (s : NodeSpec) : Edit NodeId :=
  create s fun
    | .ok n => done n
    | .error e => broken ("create: " ++ e.message)

/-- Copies a node with all below it. -/
def copy (n : NodeId) : Edit NodeId := clone n done

def replace (old new : NodeId) : Edit Bool := change (.replace old new) done

def remove (n : NodeId) : Edit Bool := change (.remove n) done

def insertBefore (anchor new : NodeId) : Edit Bool := change (.insertBefore anchor new) done

def insertAfter (anchor new : NodeId) : Edit Bool := change (.insertAfter anchor new) done

def splice (first : NodeId) (count : Nat) (replacements : List NodeId) : Edit Bool :=
  change (.splice first count replacements) done

/-- Who runs a program: the rule, the pass and the resolver. -/
structure Setting where
  resolver : Resolver
  rule : String
  pass : Nat

/-- What a program leaves behind: its value or the message it broke off with, the tree, and the
events of changes that did not apply. -/
structure Outcome (α : Type) where
  value : Except String α
  tree : SyntaxTree
  events : List Event

/-- Runs a program on a tree, after the given events. -/
def runFrom (s : Setting) : Edit α → SyntaxTree → List Event → Outcome α
  | done a, t, es => ⟨.ok a, t, es⟩
  | broken m, t, es => ⟨.error m, t, es⟩
  | look next, t, es => runFrom s (next ⟨t, s.resolver, s.rule, s.pass⟩) t es
  | create spec next, t, es =>
    match t.create? spec with
    | .ok (n, t) => runFrom s (next (.ok n)) t es
    | .error e => runFrom s (next (.error e)) t es
  | clone n next, t, es =>
    let (m, t) := t.clone n
    runFrom s (next m) t es
  | change c next, t, es =>
    match c.appliedTo? t with
    | some t => runFrom s (next true) t es
    | none =>
      runFrom s (next false) t
        (es ++ [⟨s.pass, some s.rule, some c.site, t.span c.site, .rejected c.word⟩])

end Edit

end TreeTidy
