import TreeTidy.Proofs.Tree.History
/-!
The operations step by step: what they look at and what they write, in that order, on a tree that they
change in place. Where one of them gives up, it has written nothing yet.
-/
namespace TreeTidy.SyntaxTree

section Steps

def trySetRoot (n : NodeId) : StateM SyntaxTree (Except TreeError Unit) := do
  let t ← get
  if !t.isDetached n then return .error (.notDetached n)
  if let some r := t.root then
    modify fun t => t.destroy r
  modify fun t => { t with root := some n }
  modify bump
  return .ok ()

def tryCreate (s : NodeSpec) : StateM SyntaxTree (Except TreeError NodeId) := do
  let t ← get
  let places := s.kind.layout.slots
  if places.length < s.slots.length then
    return .error (.tooManySlots s.kind.tag places.length s.slots.length)
  let slots := padSlots places.length s.slots
  match t.checkSlots s.kind 0 [] slots places with
  | .error e => return .error e
  | .ok seen =>
    match t.checkList s.kind seen s.list with
    | .error e => return .error e
    | .ok _ =>
      let d : Node := ⟨s.kind, s.span, s.ty, slots, s.list, none, true, none⟩
      modify fun t => t.push d
      d.children.forM fun c => modify fun u => u.update c fun e => { e with parent := some t.fresh }
      return .ok t.fresh

def tryReplace (old new : NodeId) : StateM SyntaxTree Bool := do
  let t ← get
  if old = new || !t.isAttached old || !t.isAlive new then return false
  if !t.isDetached new && !t.isAncestor old new then return false
  match t.parent? old with
  | none =>
    modify fun t => t.unlink new
    modify fun t => { t with root := some new }
  | some p =>
    let some pos := t.position? old | return false
    if !t.admits p pos (t.kind new) then return false
    modify fun t => t.unlink new
    modify fun t => t.update p fun d => occupy d new pos
    modify fun t => t.update new fun d => { d with parent := some p }
  modify fun t => t.destroy old
  modify fun t => t.update old fun d => { d with successor := some new }
  modify bump
  return true

def tryRemove (n : NodeId) : StateM SyntaxTree Bool := do
  let t ← get
  if !t.isAttached n then return false
  let some p := t.parent? n | return false
  let some pos := t.position? n | return false
  let layout := (t.kind p).layout
  match pos with
  | .slot i =>
    if !(layout.slots[i]?).any SlotSpec.optional then return false
    modify fun t => t.update p fun d => { d with slots := d.slots.set i none }
  | .list i =>
    if (t.list p).length ≤ (layout.list.map ListSpec.least).getD 0 then return false
    modify fun t => t.update p fun d => { d with list := d.list.eraseIdx i }
  modify fun t => t.destroy n
  modify bump
  return true

def tryInsertAt (anchor new : NodeId) (offset : Nat) : StateM SyntaxTree Bool := do
  let t ← get
  if !t.isAttached anchor || !t.isDetached new then return false
  let some p := t.parent? anchor | return false
  let some (.list i) := t.position? anchor | return false
  if !t.admits p (.list i) (t.kind new) then return false
  modify fun t => t.update p fun d => { d with list := d.list.insertIdx (i + offset) new }
  modify fun t => t.update new fun d => { d with parent := some p }
  modify bump
  return true

def trySplice (first : NodeId) (count : Nat) (news : List NodeId) : StateM SyntaxTree Bool := do
  let t ← get
  if count = 0 || !t.isAttached first then return false
  let some p := t.parent? first | return false
  let some (.list i) := t.position? first | return false
  let removed := ((t.list p).drop i).take count
  if removed.length ≠ count then return false
  let some spec := (t.kind p).layout.list | return false
  if (t.list p).length - count + news.length < spec.least then return false
  if !decide news.Nodup || !news.all (t.canSplice removed spec.admits) then return false
  (news.filter fun n => !t.isDetached n).forM fun n => modify fun t => t.unlink n
  modify fun t => t.update p fun d =>
    { d with list := d.list.take i ++ news ++ d.list.drop (i + count) }
  news.forM fun n => modify fun t => t.update n fun d => { d with parent := some p }
  removed.forM fun r => modify fun t => t.destroy r
  modify fun t => t.update first fun d => { d with successor := news.head?.or d.successor }
  modify bump
  return true

/-- A public operation, carried out on a tree in place; says whether it was. -/
def Operation.attempt : Operation → StateM SyntaxTree Bool
  | setRoot n => do return (← trySetRoot n).isOk
  | create s => do return (← tryCreate s).isOk
  | clone n => do
    modify fun t => (t.clone n).2
    return true
  | setType n ty => do
    modify fun t => t.update n fun d => { d with ty := ty }
    modify bump
    return true
  | change (.replace old new) => tryReplace old new
  | change (.remove n) => tryRemove n
  | change (.insertBefore anchor new) => tryInsertAt anchor new 0
  | change (.insertAfter anchor new) => tryInsertAt anchor new 1
  | change (.splice first count news) => trySplice first count news

/-- The tree after an operation, unless it is refused. -/
def Operation.performed? (t : SyntaxTree) : Operation → Option SyntaxTree
  | setRoot n => (t.setRoot? n).toOption
  | create s => (t.create? s).toOption.map Prod.snd
  | clone n => some (t.clone n).2
  | setType n ty => some (t.setType n ty)
  | change c => c.appliedTo? t

theorem Operation.perform_eq (t : SyntaxTree) (op : Operation) :
    op.perform t = (op.performed? t).getD t := by
  cases op <;> rfl

end Steps

section Runs

/-- What comes of an attempt: the changed tree, or the tree as it was. -/
def outcome (t : SyntaxTree) : Option SyntaxTree → Bool × SyntaxTree
  | some u => (true, u)
  | none => (false, t)

@[simp] theorem run_forM_modify (f : NodeId → SyntaxTree → SyntaxTree) (ns : List NodeId)
    (t : SyntaxTree) : (ns.forM fun n => modify (f n) : StateM SyntaxTree PUnit).run t =
      ((), ns.foldl (fun u n => f n u) t) := by
  induction ns generalizing t with
  | nil => rfl
  | cons n ns ih => exact ih (f n t)

theorem run_get_bind {α : Type} (f : SyntaxTree → StateM SyntaxTree α) (t : SyntaxTree) :
    StateT.run (get >>= f) t = (f t).run t := rfl

theorem run_trySetRoot (t : SyntaxTree) (n : NodeId) : (trySetRoot n).run t =
    match t.setRoot? n with
    | .ok u => (.ok (), u)
    | .error e => (.error e, t) := by
  simp only [trySetRoot, SyntaxTree.setRoot?, run_get_bind]
  split
  · rfl
  · cases t.root <;> rfl

theorem run_tryReplace (t : SyntaxTree) (old new : NodeId) :
    (tryReplace old new).run t = t.outcome (t.replace? old new) := by
  simp only [tryReplace, SyntaxTree.replace?, run_get_bind]
  split
  · rfl
  split
  · rfl
  cases t.parent? old with
  | none => rfl
  | some p =>
    cases t.position? old with
    | none => rfl
    | some pos =>
      dsimp only
      split <;> rfl

theorem run_tryRemove (t : SyntaxTree) (n : NodeId) :
    (tryRemove n).run t = t.outcome (t.remove? n) := by
  simp only [tryRemove, SyntaxTree.remove?, run_get_bind]
  split
  · rfl
  cases t.parent? n with
  | none => rfl
  | some p =>
    cases t.position? n with
    | none => rfl
    | some pos =>
      cases pos with
      | slot i =>
        dsimp only
        split <;> rfl
      | list i =>
        dsimp only
        by_cases h : (t.list p).length ≤ ((t.kind p).layout.list.map ListSpec.least).getD 0
        · simp [h, outcome]
          rfl
        · simp [h, outcome, Nat.not_le.mp h]
          rfl

theorem run_tryInsertAt (t : SyntaxTree) (anchor new : NodeId) (offset : Nat) :
    (tryInsertAt anchor new offset).run t = t.outcome (t.insertAt? anchor new offset) := by
  simp only [tryInsertAt, SyntaxTree.insertAt?, listIndex?, run_get_bind]
  split
  · rfl
  cases t.parent? anchor with
  | none => rfl
  | some p =>
    rcases t.position? anchor with _ | _ | i
    · rfl
    · rfl
    · dsimp only
      split <;> rfl

theorem run_trySplice (t : SyntaxTree) (first : NodeId) (count : Nat) (news : List NodeId) :
    (trySplice first count news).run t = t.outcome (t.splice? first count news) := by
  simp only [trySplice, SyntaxTree.splice?, window?, listIndex?, run_get_bind]
  split
  · rfl
  cases t.parent? first with
  | none => rfl
  | some p =>
    rcases t.position? first with _ | _ | i
    · rfl
    · rfl
    · dsimp only
      by_cases hl : (((t.list p).drop i).take count).length = count
      · simp only [hl, ne_eq, not_true_eq_false, if_false, if_true]
        cases (t.kind p).layout.list with
        | none => rfl
        | some spec =>
          dsimp only
          split
          · rfl
          split
          · rfl
          · simp only [StateT.run_bind, run_forM_modify]
            rfl
      · simp only [hl, ne_eq, not_false_eq_true, if_false, if_true]
        rfl

theorem run_tryCreate (t : SyntaxTree) (s : NodeSpec) : (tryCreate s).run t =
    match t.create? s with
    | .ok (n, u) => (.ok n, u)
    | .error e => (.error e, t) := by
  simp only [tryCreate, SyntaxTree.create?, run_get_bind]
  split
  · rfl
  cases t.checkSlots s.kind 0 [] (padSlots s.kind.layout.slots.length s.slots) s.kind.layout.slots with
  | error e => rfl
  | ok seen =>
    dsimp only
    cases h : t.checkList s.kind seen s.list with
    | error e =>
      simp only [bind, Except.bind, h]
      rfl
    | ok x =>
      simp only [StateT.run_bind, run_forM_modify]
      simp only [bind, Except.bind, h]
      rfl

/-- An operation that is refused leaves the tree as it was, in all its parts. -/
theorem Operation.run_attempt (t : SyntaxTree) (op : Operation) :
    op.attempt.run t = t.outcome (op.performed? t) := by
  cases op with
  | setRoot n =>
    have h := run_trySetRoot t n
    cases hr : t.setRoot? n <;> simp [attempt, performed?, outcome, hr, h] <;> rfl
  | create s =>
    have h := run_tryCreate t s
    cases hr : t.create? s <;> simp [attempt, performed?, outcome, hr, h] <;> rfl
  | clone n => rfl
  | setType n ty => rfl
  | change c =>
    cases c with
    | replace old new => exact run_tryReplace t old new
    | remove n => exact run_tryRemove t n
    | insertBefore anchor new => exact run_tryInsertAt t anchor new 0
    | insertAfter anchor new => exact run_tryInsertAt t anchor new 1
    | splice first count news => exact run_trySplice t first count news

end Runs

end TreeTidy.SyntaxTree
