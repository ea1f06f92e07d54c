import TreeTidy.Tree.Basic
/-!
Checking a tree from scratch: that its links agree (each node below the root is alive, is reached
once, and names the node that holds it as its parent), and that children fit the layouts.
-/
namespace TreeTidy

/-- One fault of a node. -/
structure Fault where
  node : NodeId
  kind : String
  message : String
  deriving DecidableEq, Repr

def Fault.text (f : Fault) : String := f.node.text ++ " (" ++ f.kind ++ "): " ++ f.message

structure Validation where
  linkFaults : List Fault
  layoutFaults : List Fault
  deriving DecidableEq, Repr

namespace Validation

def none : Validation := ⟨[], []⟩

def passed (v : Validation) : Bool := v.linkFaults.isEmpty && v.layoutFaults.isEmpty

/-- Faults of one sort under a heading with their number. -/
def part (sort : String) (faults : List Fault) : String :=
  if faults.isEmpty then ""
  else toString faults.length ++ " " ++ sort ++ " error(s) found:\n"
    ++ String.join (faults.map fun f => "  - " ++ f.text ++ "\n")

def text (v : Validation) : String :=
  if v.passed then "validation passed"
  else part "link" v.linkFaults ++ part "layout" v.layoutFaults

end Validation

namespace SyntaxTree

def fault (t : SyntaxTree) (n : NodeId) (message : String) : Fault := ⟨n, (t.kind n).tag, message⟩

/-- Faults of the slots, from a given place on. -/
def slotFaults (t : SyntaxTree) (n : NodeId) :
    (index : Nat) → List (Option NodeId) → List SlotSpec → List Fault
  | i, some c :: slots, place :: places =>
    let rest := slotFaults t n (i + 1) slots places
    if place.admits.accepts (t.kind c) then rest
    else t.fault n ((Position.slot i).text ++ " holds a " ++ (t.kind c).tag ++ " node") :: rest
  | i, none :: slots, place :: places =>
    let rest := slotFaults t n (i + 1) slots places
    if place.optional then rest
    else t.fault n ("required slot #" ++ toString i ++ " is empty") :: rest
  | _, _, _ => []

/-- Faults of the list children, from a given index on. -/
def itemFaults (t : SyntaxTree) (n : NodeId) (admits : SlotClass) :
    (index : Nat) → List NodeId → List Fault
  | _, [] => []
  | i, c :: items =>
    let rest := itemFaults t n admits (i + 1) items
    if admits.accepts (t.kind c) then rest
    else t.fault n ((Position.list i).text ++ " holds a " ++ (t.kind c).tag ++ " node") :: rest

/-- How the children of a node miss its layout. -/
def layoutFaults (t : SyntaxTree) (n : NodeId) : List Fault :=
  let d := t.node n
  let layout := d.kind.layout
  let count :=
    if d.slots.length = layout.slots.length then []
    else [t.fault n ("expected " ++ toString layout.slots.length ++ " slot(s), found "
      ++ toString d.slots.length)]
  let list := match layout.list with
    | none => if d.list.isEmpty then [] else [t.fault n "node kind has no list"]
    | some spec =>
      (if d.list.length < spec.least
        then [t.fault n ("list below minimum length " ++ toString spec.least)] else [])
        ++ t.itemFaults n spec.admits 0 d.list
  count ++ t.slotFaults n 0 d.slots layout.slots ++ list

/-- The children of a node whose parent link names another. -/
def strayChildren (t : SyntaxTree) (n : NodeId) : List Fault :=
  ((t.children n).filter fun c => t.parent? c != some n).map fun c =>
    t.fault c ("parent link does not point at " ++ n.text)

/-- Checks the nodes of a worklist, last pushed first. A node is expanded once, so fuel for the root
and every child there is suffices. -/
def validateFrom (t : SyntaxTree) :
    (fuel : Nat) → (seen : List NodeId) → (work : List NodeId) → Validation → Validation
  | 0, _, _, v => v
  | _ + 1, _, [], v => v
  | fuel + 1, seen, n :: work, v =>
    if seen.contains n then
      validateFrom t fuel seen work
        { v with linkFaults := v.linkFaults ++ [t.fault n "reachable more than once"] }
    else
      let dead := if t.isAlive n then [] else [t.fault n "dead node is reachable"]
      validateFrom t fuel (n :: seen) ((t.children n).reverse ++ work)
        ⟨v.linkFaults ++ dead ++ t.strayChildren n, v.layoutFaults ++ t.layoutFaults n⟩

/-- The number of places for children that are taken, over all nodes. -/
def childCount (t : SyntaxTree) : Nat :=
  t.nodes.foldl (fun k d => k + d.children.length) 0

/-- Checks the tree below the root. -/
def validate (t : SyntaxTree) : Validation :=
  match t.root with
  | none => Validation.none
  | some r =>
    let above := if (t.parent? r).isSome then [t.fault r "root has a parent"] else []
    t.validateFrom (t.childCount + 2) [] [r] ⟨above, []⟩

end SyntaxTree

end TreeTidy
