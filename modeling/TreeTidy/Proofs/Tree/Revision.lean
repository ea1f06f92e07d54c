import TreeTidy.Proofs.Tree.Attempts
import TreeTidy.Proofs.Tree.Outcomes
/-!
What is attached, and the revision of a tree, which counts the changes of what is attached. The ways
from the root tell the attached nodes of a tree apart, and lead to the same nodes while a tree only
grows.
-/
namespace TreeTidy.SyntaxTree

variable {t u v : SyntaxTree} {n : NodeId} {way : List Position}

/-- The node at the end of a way from the root. -/
def rootAt? (t : SyntaxTree) (way : List Position) : Option NodeId := t.root.bind fun r => t.at? r way

theorem Linked.exists_rootAt? (ht : t.Linked) (hn : t.isAttached n = true) :
    ∃ way, t.rootAt? way = some n := by
  obtain ⟨r, hr, hw⟩ := ht.isAttached_iff.mp hn
  obtain ⟨way, hway⟩ := exists_at? hw
  exact ⟨way, by rw [rootAt?, hr, Option.bind_some, hway]⟩

theorem Grown.rootAt? (h : t.Grown u) (ht : t.Linked) (way : List Position) :
    u.rootAt? way = t.rootAt? way := by
  rw [SyntaxTree.rootAt?, SyntaxTree.rootAt?, h.root]
  cases hr : t.root with
  | none => rfl
  | some r => exact h.at? ht (lt_of_alive (ht.root hr).1) way

theorem Grown.rootDoc? (h : t.Grown u) (ht : t.Linked) : u.rootDoc? = t.rootDoc? := by
  rw [SyntaxTree.rootDoc?, SyntaxTree.rootDoc?, h.root]
  cases hr : t.root with
  | none => rfl
  | some r => exact congrArg some (h.doc ht (lt_of_alive (ht.root hr).1))

/-- Only the root is at the end of the empty way. -/
theorem Linked.root_iff (ht : t.Linked) (hn : t.rootAt? way = some n) :
    t.root = some n ↔ way = [] := by
  obtain ⟨r, hr, hw⟩ := Option.bind_eq_some_iff.mp hn
  constructor
  · intro h
    obtain rfl : r = n := Option.some.inj (hr.symm.trans h)
    exact ht.at?_unique (ht.root hr).1 hw rfl
  · rintro rfl
    exact hr.trans hw

theorem Linked.kind_of_rootAt? (ht : t.Linked) (hn : t.rootAt? way = some n) :
    some (t.kind n) = (t.rootDoc?.bind fun d => d.at? way).map Doc.kind := by
  obtain ⟨r, hr, hw⟩ := Option.bind_eq_some_iff.mp hn
  rw [SyntaxTree.rootDoc?, hr, Option.map_some, Option.bind_some, ht.at?_doc, hw, Option.map_some,
    Option.map_some, ht.kind_doc]

/-- What is attached is the same in both trees. -/
structure SameAttached (t u : SyntaxTree) : Prop where
  root : u.root = t.root
  attached : ∀ n, u.isAttached n = true ↔ t.isAttached n = true
  node : ∀ {n}, t.isAttached n = true → u.node n = t.node n
  rootDoc : u.rootDoc? = t.rootDoc?

theorem SameAttached.refl (t : SyntaxTree) : t.SameAttached t :=
  ⟨rfl, fun _ => Iff.rfl, fun _ => rfl, rfl⟩

theorem SameAttached.trans (h : t.SameAttached u) (h' : u.SameAttached v) : t.SameAttached v :=
  ⟨h'.root.trans h.root, fun n => (h'.attached n).trans (h.attached n),
    fun hn => (h'.node ((h.attached _).mpr hn)).trans (h.node hn), h'.rootDoc.trans h.rootDoc⟩

theorem SameAttached.symm (h : t.SameAttached u) : u.SameAttached t :=
  ⟨h.root.symm, fun n => (h.attached n).symm, fun hn => (h.node ((h.attached _).mp hn)).symm,
    h.rootDoc.symm⟩

theorem Grown.sameAttached (h : t.Grown u) (ht : t.Linked) (hu : u.Linked) : t.SameAttached u :=
  ⟨h.root, fun _ => h.attached_iff ht hu, h.node_of_attached ht, h.rootDoc? ht⟩

end TreeTidy.SyntaxTree

/-! States of one tree that have the same revision agree in all that is attached. -/
namespace TreeTidy.SyntaxTree

variable {t u v : SyntaxTree}

/-- A later state of a tree. -/
structure Edited (t u : SyntaxTree) : Prop where
  linked : u.Linked
  revision_le : t.revision ≤ u.revision
  grown : u.revision = t.revision → t.Grown u

namespace Edited

theorem refl (ht : t.Linked) : t.Edited t := ⟨ht, le_refl _, fun _ => .refl t⟩

theorem trans (h : t.Edited u) (h' : u.Edited v) : t.Edited v where
  linked := h'.linked
  revision_le := h.revision_le.trans h'.revision_le
  grown hv := by
    have hu : u.revision = t.revision :=
      le_antisymm (hv ▸ h'.revision_le) h.revision_le
    exact (h.grown hu).trans (h'.grown (hv.trans hu.symm))

theorem of_grown (hu : u.Linked) (h : t.Grown u) : t.Edited u := ⟨hu, h.revision.ge, fun _ => h⟩

theorem of_bumped (hu : u.Linked) (h : u.revision = t.revision + 1) : t.Edited u :=
  ⟨hu, by omega, by omega⟩

end Edited

/-- Every change counts in the revision. -/
theorem Linked.revision_appliedTo? (ht : t.Linked) {c : Change} (h : c.appliedTo? t = some u) :
    u.revision = t.revision + 1 := by
  cases c with
  | replace old new =>
    obtain ⟨-, ho, hr, ⟨-, -, rfl⟩ | ⟨p, pos, hp, hat, -, rfl⟩⟩ := ht.replace?_cases h
    · rw [revision_bump, SyntaxTree.retire, revision_update, revision_destroy, revision_withRoot,
        (marks_unlink t new).2.2.2]
    · rw [revision_bump, revision_update, (ht.exchange_replace ho hp hat hr).marks.2.2.2]
  | remove n =>
    obtain ⟨ho, p, pos, hp, hat, -, rfl⟩ := ht.remove?_cases h
    rw [revision_bump, (ht.exchange_remove ho hp hat).marks.2.2.2]
  | insertBefore anchor new =>
    obtain ⟨ha, hd, p, i, hp, hi, -, rfl⟩ := ht.insertAt?_cases h (Nat.zero_le 1)
    rw [revision_bump, (ht.exchange_insert ha hd hp hi (Nat.zero_le 1)).marks.2.2.2]
  | insertAfter anchor new =>
    obtain ⟨ha, hd, p, i, hp, hi, -, rfl⟩ := ht.insertAt?_cases h (le_refl 1)
    rw [revision_bump, (ht.exchange_insert ha hd hp hi (le_refl 1)).marks.2.2.2]
  | splice first count news =>
    obtain ⟨-, ha, p, i, spec, hp, -, -, -, -, hn, hr, rfl⟩ := ht.splice?_cases h
    rw [revision_bump, revision_update,
      (ht.exchange_splice ha hp hn fun n hn => (hr n hn).2.1).marks.2.2.2]

theorem revision_setRoot? {n : NodeId} (h : t.setRoot? n = .ok u) :
    u.revision = t.revision + 1 := by
  obtain ⟨-, rfl⟩ := setRoot?_cases h
  rw [revision_bump, revision_withRoot, (marks_foldl_destroy _ _).2.2.2]

namespace Operation

/-- By how much an operation that is not refused raises the revision. -/
def counted : Operation → Nat
  | setRoot _ | setType _ _ | change _ => 1
  | create _ | clone _ => 0

theorem revision_of_performed (ht : t.Linked) {op : Operation} (h : op.performed? t = some u) :
    u.revision = t.revision + op.counted := by
  cases op with
  | setRoot n =>
    cases hr : t.setRoot? n with
    | error e => simp [performed?, hr, Except.toOption] at h
    | ok v =>
      obtain rfl : v = u := by simpa [performed?, hr, Except.toOption] using h
      exact revision_setRoot? hr
  | create s =>
    cases hr : t.create? s with
    | error e => simp [performed?, hr, Except.toOption] at h
    | ok r =>
      obtain rfl : r.2 = u := by simpa [performed?, hr, Except.toOption] using h
      exact (ht.create? hr).grown.revision
  | clone n =>
    cases h
    exact (ht.clone n).kept.revision
  | setType n ty =>
    cases h
    rfl
  | change c => exact ht.revision_appliedTo? h

end Operation

theorem Linked.edited_perform (ht : t.Linked) (op : Operation) : t.Edited (op.perform t) := by
  have hl := ht.perform op
  cases h : op.performed? t with
  | none =>
    rw [op.perform_eq, h, Option.getD_none]
    exact .refl ht
  | some u =>
    have hr := Operation.revision_of_performed ht h
    rw [op.perform_eq, h, Option.getD_some] at hl ⊢
    cases op with
    | setRoot n => exact .of_bumped hl hr
    | setType n ty => exact .of_bumped hl hr
    | change c => exact .of_bumped hl hr
    | clone n =>
      cases h
      exact .of_grown hl (ht.clone n).kept.grown
    | create s =>
      cases hc : t.create? s with
      | error e => simp [Operation.performed?, hc, Except.toOption] at h
      | ok r =>
        obtain rfl : r.2 = u := by simpa [Operation.performed?, hc, Except.toOption] using h
        exact .of_grown hl (ht.create? hc).grown

theorem Linked.edited_foldl_perform (ht : t.Linked) (ops : List Operation) :
    t.Edited (ops.foldl Operation.perform t) := by
  induction ops generalizing t with
  | nil => exact .refl ht
  | cons op ops ih => exact (ht.edited_perform op).trans (ih (ht.perform op))

/-- A state of the history and a later one. -/
theorem edited_history (id : Nat) (ops : List Operation) {i j : Nat} (hij : i ≤ j) :
    (history id (ops.take i)).Edited (history id (ops.take j)) := by
  have hsplit : ops.take j = ops.take i ++ (ops.take j).drop i := by
    have h := (List.take_append_drop i (ops.take j)).symm
    rwa [List.take_take, Nat.min_eq_left hij] at h
  rw [hsplit, history, history, List.foldl_append]
  exact (linked_history id (ops.take i)).edited_foldl_perform _

/-- An operation either changes nothing at all, or is carried out and counts in the revision what it
has to; and whenever the revision is the same again, all that is attached is. -/
theorem history_commits_or_nothing (id : Nat) (ops : List Operation) :
    (∀ (op : Operation) ok u, op.attempt.run (history id ops) = (ok, u) →
      u = op.perform (history id ops) ∧ (ok = false → u = history id ops) ∧
      (ok = true → u.revision = (history id ops).revision + op.counted)) ∧
    ∀ i j, (history id (ops.take i)).revision = (history id (ops.take j)).revision →
      (history id (ops.take i)).SameAttached (history id (ops.take j)) := by
  have ht := linked_history id ops
  constructor
  · intro op ok u h
    rw [op.run_attempt] at h
    rw [op.perform_eq]
    cases hp : op.performed? (history id ops) with
    | none =>
      rw [hp] at h
      cases h
      exact ⟨rfl, fun _ => rfl, nofun⟩
    | some v =>
      rw [hp] at h
      cases h
      exact ⟨rfl, nofun, fun _ => Operation.revision_of_performed ht hp⟩
  · have key : ∀ i j, i ≤ j →
        (history id (ops.take i)).revision = (history id (ops.take j)).revision →
        (history id (ops.take i)).SameAttached (history id (ops.take j)) := by
      intro i j hij h
      have he := edited_history id ops hij
      exact (he.grown h.symm).sameAttached (linked_history id _) he.linked
    intro i j h
    rcases Nat.le_total i j with hij | hij
    · exact key i j hij h
    · exact (key j i hij h.symm).symm

/-- An empty statement becomes the root, and another one is made. -/
def spareStmt : List Operation :=
  [.create ⟨.emptyStmt, Span.none, none, [], []⟩, .setRoot 0, .create ⟨.emptyStmt, Span.none, none, [], []⟩]

/-- The root is not taken out, and the other statement does not count. -/
theorem refusedRemoval_changes_nothing : ∃ u,
    (Operation.attempt (.change (.remove 0))).run (history 1 spareStmt) = (false, u) ∧
    u = history 1 spareStmt ∧
    (history 1 (spareStmt.take 2)).revision = (history 1 (spareStmt.take 3)).revision ∧
    (history 1 (spareStmt.take 2)).SameAttached (history 1 (spareStmt.take 3)) := by
  obtain ⟨u, hu⟩ : ∃ u, (Operation.attempt (.change (.remove 0))).run (history 1 spareStmt) =
      (false, u) := ⟨_, rfl⟩
  have hrev : (history 1 (spareStmt.take 2)).revision = (history 1 (spareStmt.take 3)).revision := rfl
  have h := history_commits_or_nothing 1 spareStmt
  exact ⟨u, hu, (h.1 _ _ _ hu).2.1 rfl, hrev, h.2 2 3 hrev⟩

end TreeTidy.SyntaxTree
