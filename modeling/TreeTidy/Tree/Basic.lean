import TreeTidy.Document.Basic
/-!
Trees of nodes. Nodes are kept in the order they were made and named by their place in that order;
a node knows its children and its parent. A node that was taken out of the tree stays where it is
kept, but is dead from then on; if another node took its place, it names that node as its successor.
-/
namespace TreeTidy

/-- A node, by its place in the order in which nodes were made. -/
abbrev NodeId := Nat

def NodeId.text (n : NodeId) : String := "n" ++ toString n

/-- Where a node sits below its parent. -/
inductive Position
  | slot (index : Nat)
  | list (index : Nat)
  deriving DecidableEq, Repr, Inhabited

def Position.text : Position → String
  | slot i => "slot#" ++ toString i
  | list i => "list#" ++ toString i

structure Node where
  kind : NodeKind
  span : Span
  /-- The type that the unit states for the node. -/
  ty : Option TypeDesc
  /-- The children in the slots of the layout; every slot has an entry. -/
  slots : List (Option NodeId)
  list : List NodeId
  parent : Option NodeId
  alive : Bool
  successor : Option NodeId
  deriving DecidableEq, Repr

namespace Node

/-- What is found where no node is. -/
def absent : Node := ⟨.emptyStmt, Span.none, none, [], [], none, false, none⟩

instance : Inhabited Node := ⟨absent⟩

/-- The children in the slots, then those in the list. -/
def children (d : Node) : List NodeId := d.slots.filterMap id ++ d.list

end Node

structure SyntaxTree where
  nodes : Array Node
  root : Option NodeId
  /-- Tells trees apart; no two trees alive at a time have the same. -/
  id : Nat
  /-- The number of changes made to the tree below the root so far. -/
  revision : Nat
  deriving Repr, Inhabited

namespace SyntaxTree

def empty (id : Nat) : SyntaxTree := ⟨#[], none, id, 0⟩

/-- The same tree under another identity. -/
def fork (t : SyntaxTree) (id : Nat) : SyntaxTree := { t with id := id }

/-- The number of nodes ever made. -/
def size (t : SyntaxTree) : Nat := t.nodes.size

def node (t : SyntaxTree) (n : NodeId) : Node := t.nodes.getD n Node.absent

def kind (t : SyntaxTree) (n : NodeId) : NodeKind := (t.node n).kind

def span (t : SyntaxTree) (n : NodeId) : Span := (t.node n).span

def parent? (t : SyntaxTree) (n : NodeId) : Option NodeId := (t.node n).parent

def isAlive (t : SyntaxTree) (n : NodeId) : Bool := (t.node n).alive

/-- The child in a slot. -/
def slot? (t : SyntaxTree) (n : NodeId) (i : Nat) : Option NodeId := (t.node n).slots[i]?.join

def list (t : SyntaxTree) (n : NodeId) : List NodeId := (t.node n).list

def children (t : SyntaxTree) (n : NodeId) : List NodeId := (t.node n).children

/-- At most `fuel` nodes above one whose parent is given, nearest first. -/
def above (t : SyntaxTree) : (fuel : Nat) → Option NodeId → List NodeId
  | 0, _ => []
  | _ + 1, none => []
  | fuel + 1, some p => p :: above t fuel (t.parent? p)

/-- The nodes above a node, nearest first. -/
def ancestors (t : SyntaxTree) (n : NodeId) : List NodeId := t.above t.size (t.parent? n)

/-- Whether `a` is strictly above `n`. -/
def isAncestor (t : SyntaxTree) (a n : NodeId) : Bool := (t.ancestors n).contains a

/-- Alive, and held by no parent and not as the root. -/
def isDetached (t : SyntaxTree) (n : NodeId) : Bool :=
  t.isAlive n && (t.parent? n).isNone && t.root != some n

/-- Alive, and the root or below it. -/
def isAttached (t : SyntaxTree) (n : NodeId) : Bool :=
  t.isAlive n && (n :: t.ancestors n).any fun m => t.root == some m

/-- Where the parent's data hold the node. -/
def positionIn (d : Node) (n : NodeId) : Option Position :=
  match d.slots.findIdx? (· == some n) with
  | some i => some (.slot i)
  | none => (d.list.findIdx? (· == n)).map .list

/-- Where a node sits below its parent. -/
def position? (t : SyntaxTree) (n : NodeId) : Option Position :=
  (t.parent? n).bind fun p => positionIn (t.node p) n

/-- The index of a node among the list children of its parent. -/
def listIndex? (t : SyntaxTree) (n : NodeId) : Option (NodeId × Nat) :=
  match t.parent? n, t.position? n with
  | some p, some (.list i) => some (p, i)
  | _, _ => none

/-- The first node alive among a node, its successor, the successor of that, and so on. -/
def successorWithin (t : SyntaxTree) : (fuel : Nat) → NodeId → Option NodeId
  | 0, _ => none
  | fuel + 1, n =>
    if t.isAlive n then some n
    else match (t.node n).successor with
      | some m => successorWithin t fuel m
      | none => none

/-- The node that is now where the node was. -/
def successor? (t : SyntaxTree) (n : NodeId) : Option NodeId := t.successorWithin (t.size + 1) n

/-- Consecutive list children of one parent, from the given one on. -/
def window? (t : SyntaxTree) (first : NodeId) (length : Nat) : Option (List NodeId) :=
  match t.listIndex? first with
  | some (p, i) =>
    let found := ((t.list p).drop i).take length
    if found.length = length then some found else none
  | none => none

/-- The next list child of the same parent. -/
def next? (t : SyntaxTree) (n : NodeId) : Option NodeId :=
  (t.window? n 2).bind fun w => w[1]?

/-- The list child of the same parent just before. -/
def previous? (t : SyntaxTree) (n : NodeId) : Option NodeId :=
  match t.listIndex? n with
  | some (p, i + 1) => (t.list p)[i]?
  | _ => none

/-- A node and the nodes below it to the given depth: each before its children, in order. -/
def descendantsWithin (t : SyntaxTree) : (fuel : Nat) → NodeId → List NodeId
  | 0, _ => []
  | fuel + 1, n => n :: (t.children n).flatMap (descendantsWithin t fuel)

/-- A node and all nodes below it: each before its children, in order. -/
def descendants (t : SyntaxTree) (n : NodeId) : List NodeId := t.descendantsWithin (t.size + 1) n

/-- A node with the nodes below it to the given depth, as a document. -/
def docWithin (t : SyntaxTree) : (fuel : Nat) → NodeId → Doc
  | 0, n => .node (t.kind n) (t.span n) (t.node n).ty [] []
  | fuel + 1, n =>
    let d := t.node n
    .node d.kind d.span d.ty (d.slots.map (Option.map (docWithin t fuel)))
      (d.list.map (docWithin t fuel))

/-- A node with all below it, as a document. -/
def doc (t : SyntaxTree) (n : NodeId) : Doc := t.docWithin (t.size + 1) n

/-- The document of the root. -/
def rootDoc? (t : SyntaxTree) : Option Doc := t.root.map t.doc

/-- Changes one node. -/
def update (t : SyntaxTree) (n : NodeId) (f : Node → Node) : SyntaxTree :=
  { t with nodes := t.nodes.modify n f }

/-- Marks that the tree below the root has changed. -/
def bump (t : SyntaxTree) : SyntaxTree := { t with revision := t.revision + 1 }

end SyntaxTree

end TreeTidy
