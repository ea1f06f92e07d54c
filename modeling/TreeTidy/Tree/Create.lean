import TreeTidy.Tree.Basic
/-!
Making nodes. A new node is detached: nothing holds it. Its children have to be detached as well and
fit the layout of its kind.
-/
namespace TreeTidy

/-- Why a node cannot be made, or cannot become the root. -/
inductive TreeError
  | tooManySlots (kind : String) (expected found : Nat)
  | missingSlot (kind : String) (index : Nat)
  | rejectedChild (kind : String) (position : Position) (child : String)
  | listTooShort (kind : String) (least found : Nat)
  | unexpectedList (kind : String)
  | notDetached (node : NodeId)
  | usedTwice (node : NodeId)
  deriving DecidableEq, Repr

def TreeError.message : TreeError → String
  | tooManySlots kind expected found =>
    kind ++ ": expected at most " ++ toString expected ++ " slot(s), found " ++ toString found
  | missingSlot kind index => kind ++ ": required slot #" ++ toString index ++ " is empty"
  | rejectedChild kind position child =>
    kind ++ ": " ++ position.text ++ " does not accept a " ++ child ++ " node"
  | listTooShort kind least found =>
    kind ++ ": list needs at least " ++ toString least ++ " element(s), found " ++ toString found
  | unexpectedList kind => kind ++ ": node kind has no list"
  | notDetached node => "node " ++ node.text ++ " is not detached"
  | usedTwice node => "node " ++ node.text ++ " is used twice"

/-- A node to be made. Empty slots at the end may be left out. -/
structure NodeSpec where
  kind : NodeKind
  span : Span
  ty : Option TypeDesc
  slots : List (Option NodeId)
  list : List NodeId
  deriving DecidableEq, Repr

namespace SyntaxTree

/-- The node that the next one made will be. -/
def fresh (t : SyntaxTree) : NodeId := t.size

/-- Makes a node of its data and has its children name it as their parent. -/
def allocate (t : SyntaxTree) (kind : NodeKind) (span : Span) (ty : Option TypeDesc)
    (slots : List (Option NodeId)) (list : List NodeId) : SyntaxTree :=
  let d : Node := ⟨kind, span, ty, slots, list, none, true, none⟩
  d.children.foldl (fun u c => u.update c fun e => { e with parent := some t.fresh })
    { t with nodes := t.nodes.push d }

/-- A child has to be detached and new among the children. -/
def checkChild (t : SyntaxTree) (seen : List NodeId) (c : NodeId) :
    Except TreeError (List NodeId) :=
  if !t.isDetached c then .error (.notDetached c)
  else if seen.contains c then .error (.usedTwice c)
  else .ok (c :: seen)

/-- A child has to be of a class that its place admits. -/
def checkClass (t : SyntaxTree) (kind : NodeKind) (position : Position) (admits : SlotClass)
    (c : NodeId) : Except TreeError Unit :=
  if admits.accepts (t.kind c) then .ok ()
  else .error (.rejectedChild kind.tag position (t.kind c).tag)

/-- Checks slots against their places, from a given place on; gives the children seen. -/
def checkSlots (t : SyntaxTree) (kind : NodeKind) :
    (index : Nat) → (seen : List NodeId) → List (Option NodeId) → List SlotSpec →
      Except TreeError (List NodeId)
  | i, seen, some c :: slots, place :: places => do
    let seen ← t.checkChild seen c
    t.checkClass kind (.slot i) place.admits c
    checkSlots t kind (i + 1) seen slots places
  | i, seen, none :: slots, place :: places =>
    if place.optional then checkSlots t kind (i + 1) seen slots places
    else .error (.missingSlot kind.tag i)
  | _, seen, _, _ => .ok seen

/-- Checks list children, from a given index on. -/
def checkItems (t : SyntaxTree) (kind : NodeKind) (admits : SlotClass) :
    (index : Nat) → (seen : List NodeId) → List NodeId → Except TreeError Unit
  | _, _, [] => .ok ()
  | i, seen, c :: items => do
    let seen ← t.checkChild seen c
    t.checkClass kind (.list i) admits c
    checkItems t kind admits (i + 1) seen items

def checkList (t : SyntaxTree) (kind : NodeKind) (seen items : List NodeId) :
    Except TreeError Unit :=
  match kind.layout.list with
  | none => if items.isEmpty then .ok () else .error (.unexpectedList kind.tag)
  | some spec =>
    if items.length < spec.least then
      .error (.listTooShort kind.tag spec.least items.length)
    else t.checkItems kind spec.admits 0 seen items

/-- Fills up the slots with empty ones. -/
def padSlots (count : Nat) (slots : List (Option NodeId)) : List (Option NodeId) :=
  slots ++ List.replicate (count - slots.length) none

/-- Makes a detached node, if its children are detached and fit. -/
def create? (t : SyntaxTree) (s : NodeSpec) : Except TreeError (NodeId × SyntaxTree) := do
  let places := s.kind.layout.slots
  if places.length < s.slots.length then
    throw (.tooManySlots s.kind.tag places.length s.slots.length)
  let slots := padSlots places.length s.slots
  let seen ← t.checkSlots s.kind 0 [] slots places
  t.checkList s.kind seen s.list
  pure (t.fresh, t.allocate s.kind s.span s.ty slots s.list)

/-- Maps a list while a tree is passed along. -/
def mapThrough {α β : Type} (f : SyntaxTree → α → β × SyntaxTree) :
    SyntaxTree → List α → List β × SyntaxTree
  | t, [] => ([], t)
  | t, a :: as =>
    let (b, t) := f t a
    let (bs, t) := mapThrough f t as
    (b :: bs, t)

/-- Maps what a slot holds while a tree is passed along. -/
def mapSlot {α β : Type} (f : SyntaxTree → α → β × SyntaxTree) (t : SyntaxTree) :
    Option α → Option β × SyntaxTree
  | none => (none, t)
  | some a =>
    let (b, t) := f t a
    (some b, t)

/-- Copies a node and what is below it to the given depth, children before their parents. -/
def cloneWithin : (fuel : Nat) → SyntaxTree → NodeId → NodeId × SyntaxTree
  | 0, t, n =>
    let d := t.node n
    (t.fresh, t.allocate d.kind d.span d.ty [] [])
  | fuel + 1, t, n =>
    let d := t.node n
    let (slots, t) := mapThrough (mapSlot (cloneWithin fuel)) t d.slots
    let (list, t) := mapThrough (cloneWithin fuel) t d.list
    (t.fresh, t.allocate d.kind d.span d.ty slots list)

/-- A detached copy of a node and everything below it. -/
def clone (t : SyntaxTree) (n : NodeId) : NodeId × SyntaxTree := cloneWithin (t.size + 1) t n

/-- States or withdraws the type of a node. -/
def setType (t : SyntaxTree) (n : NodeId) (ty : Option TypeDesc) : SyntaxTree :=
  (t.update n fun d => { d with ty := ty }).bump

end SyntaxTree

end TreeTidy
