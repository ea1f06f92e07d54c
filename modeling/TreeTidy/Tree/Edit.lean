import TreeTidy.Tree.Create
/-!
Edits of the tree below the root. Each edit checks all its conditions first; it gives the changed
tree, or none when it does not apply.
-/
namespace TreeTidy.SyntaxTree

/-- The class that a position below a node admits. -/
def admittedAt (t : SyntaxTree) (parent : NodeId) : Position → Option SlotClass
  | .slot i => ((t.kind parent).layout.slots[i]?).map SlotSpec.admits
  | .list _ => (t.kind parent).layout.list.map ListSpec.admits

/-- Whether a position below a node admits a kind. -/
def admits (t : SyntaxTree) (parent : NodeId) (position : Position) (kind : NodeKind) : Bool :=
  (t.admittedAt parent position).any (·.accepts kind)

/-- The data with nothing at the position: an empty slot, or a list without that child. -/
def vacate (d : Node) : Position → Node
  | .slot i => { d with slots := d.slots.set i none }
  | .list i => { d with list := d.list.eraseIdx i }

/-- The data with a child at the position. -/
def occupy (d : Node) (n : NodeId) : Position → Node
  | .slot i => { d with slots := d.slots.set i (some n) }
  | .list i => { d with list := d.list.set i n }

/-- Takes a node from its parent, whatever the parent's layout says. -/
def unlink (t : SyntaxTree) (n : NodeId) : SyntaxTree :=
  match t.parent? n with
  | none => t
  | some p =>
    let t := match t.position? n with
      | some pos => t.update p fun d => vacate d pos
      | none => t
    t.update n fun d => { d with parent := none }

/-- Marks a node and everything below it as dead. -/
def destroy (t : SyntaxTree) (n : NodeId) : SyntaxTree :=
  (t.descendants n).foldl (fun u m => u.update m fun d => { d with alive := false, parent := none }) t

/-- Destroys a node whose place another one took, if any did. -/
def retire (t : SyntaxTree) (n : NodeId) (successor : Option NodeId) : SyntaxTree :=
  (t.destroy n).update n fun d => { d with successor := successor }

/-- Makes a detached node the root; the root before is destroyed. -/
def setRoot? (t : SyntaxTree) (n : NodeId) : Except TreeError SyntaxTree :=
  if !t.isDetached n then .error (.notDetached n)
  else
    let t := match t.root with
      | some r => t.destroy r
      | none => t
    .ok ({ t with root := some n }).bump

/-- Puts `new` in the place of `old`. The new node has to be detached, or below the old one, which
then disappears around it. -/
def replace? (t : SyntaxTree) (old new : NodeId) : Option SyntaxTree :=
  if old = new || !t.isAttached old || !t.isAlive new then none
  else if !t.isDetached new && !t.isAncestor old new then none
  else
    match t.parent? old with
    | none => some (({ t.unlink new with root := some new }).retire old (some new)).bump
    | some p =>
      match t.position? old with
      | none => none
      | some pos =>
        if !t.admits p pos (t.kind new) then none
        else
          let t := (t.unlink new).update p fun d => occupy d new pos
          let t := t.update new fun d => { d with parent := some p }
          some (t.retire old (some new)).bump

/-- Takes a node out of the tree: out of an optional slot, or out of a list that stays long enough. -/
def remove? (t : SyntaxTree) (n : NodeId) : Option SyntaxTree :=
  if !t.isAttached n then none
  else
    match t.parent? n, t.position? n with
    | some p, some pos =>
      let layout := (t.kind p).layout
      let spare := match pos with
        | .slot i => (layout.slots[i]?).any SlotSpec.optional
        | .list _ => decide ((layout.list.map ListSpec.least).getD 0 < (t.list p).length)
      if !spare then none
      else some ((t.update p fun d => vacate d pos).destroy n).bump
    | _, _ => none

/-- Puts a detached node into a list, so many places after the anchor's. -/
def insertAt? (t : SyntaxTree) (anchor new : NodeId) (offset : Nat) : Option SyntaxTree :=
  if !t.isAttached anchor || !t.isDetached new then none
  else
    match t.listIndex? anchor with
    | none => none
    | some (p, i) =>
      if !t.admits p (.list i) (t.kind new) then none
      else
        let t := t.update p fun d => { d with list := d.list.insertIdx (i + offset) new }
        some (t.update new fun d => { d with parent := some p }).bump

def insertBefore? (t : SyntaxTree) (anchor new : NodeId) : Option SyntaxTree :=
  t.insertAt? anchor new 0

def insertAfter? (t : SyntaxTree) (anchor new : NodeId) : Option SyntaxTree :=
  t.insertAt? anchor new 1

/-- Whether a node can take part in replacing others: it is detached, or below one of them. -/
def canSplice (t : SyntaxTree) (removed : List NodeId) (admits : SlotClass) (n : NodeId) : Bool :=
  t.isAlive n && !removed.contains n
    && (t.isDetached n || removed.any fun r => t.isAncestor r n)
    && admits.accepts (t.kind n)

/-- Puts nodes in the place of consecutive list children, of which `first` is the first. The first of
the new nodes is the successor of `first`. -/
def splice? (t : SyntaxTree) (first : NodeId) (count : Nat) (replacements : List NodeId) :
    Option SyntaxTree :=
  if count = 0 || !t.isAttached first then none
  else
    match t.listIndex? first, t.window? first count with
    | some (p, i), some removed =>
      match (t.kind p).layout.list with
      | none => none
      | some spec =>
        if (t.list p).length - count + replacements.length < spec.least then none
        else if !decide replacements.Nodup
            || !replacements.all (t.canSplice removed spec.admits) then none
        else
          let t := (replacements.filter fun n => !t.isDetached n).foldl unlink t
          let t := t.update p fun d =>
            { d with list := d.list.take i ++ replacements ++ d.list.drop (i + count) }
          let t := replacements.foldl
            (fun u n => u.update n fun d => { d with parent := some p }) t
          let t := removed.foldl destroy t
          some (t.update first fun d =>
            { d with successor := replacements.head?.or d.successor }).bump
    | _, _ => none

end TreeTidy.SyntaxTree
