import Mathlib.Algebra.Ring.Nat
import TreeTidy.Proofs.Engine.Turns
/-!
Visits, and what comes of them where rules change nothing. A node is offered to every rule that
admits it, and as long as none of them changes the tree, all nodes of the worklist and below them
come to be offered.
-/
namespace TreeTidy

open SyntaxTree

/-- The rule changes the tree when it is offered the node. -/
def Rule.Rewrites (r : Rule) (x : Edit.Setting) (t : SyntaxTree) (n : NodeId) : Prop :=
  r.granularity.admits (t.kind n).category = true ∧
    ((r.act n).runFrom x t []).tree.revision ≠ t.revision

namespace Session

variable {I : SyntaxTree → Prop} {c : Setting} {r : Rule} {n : NodeId} {s : State}

/-- Who runs a rule in a pass. -/
def Setting.of (c : Setting) (r : Rule) : Edit.Setting := ⟨c.resolver, r.id, c.pass⟩

theorem tried_revision (c : Setting) (r : Rule) (n : NodeId) (s : State) :
    (tried c r n s).tree.revision = ((r.act n).runFrom (c.of r) s.tree []).tree.revision :=
  congrArg SyntaxTree.revision (Edit.runFrom_events (c.of r) (r.act n) s.tree s.events []).2

section

variable (hc : Tame I c.rules c.resolver) (hs : I s.tree) (hn : s.tree.isAttached n = true)
include hc hs hn

/-- A rule that would change nothing leaves the place to the next one. -/
theorem offer_of_idle (hr : r ∈ c.rules) (i left attempts : Nat)
    (h : ¬ r.Rewrites (c.of r) s.tree n) : offer c r i (left + 1) attempts n s = (some n,
      if r.granularity.admits (s.tree.kind n).category then s.idled (tried c r n s) else s) := by
  rw [offer]
  by_cases ha : r.granularity.admits (s.tree.kind n).category = true
  · have hv := hc.whole hr hs hn ha (c.of r) rfl s.events
    have h : (tried c r n s).tree.revision = s.tree.revision := by
      rw [tried_revision]
      exact not_not.mp fun hne => h ⟨ha, hne⟩
    simp only [ha, invoke_eq_of_idle hv h, Bool.not_true, Bool.false_eq_true, if_false, if_true]
  · simp [ha]

theorem offer_of_rewrites (hr : r ∈ c.rules) (i left attempts : Nat)
    (h : r.Rewrites (c.of r) s.tree n) :
    s.applied < (offer c r i (left + 1) attempts n s).2.applied := by
  obtain ⟨ha, h⟩ := h
  rw [← tried_revision] at h
  have hv := hc.whole hr hs hn ha (c.of r) rfl s.events
  have hk := (Turn.change hr hn ha h).kept hc hs
  have hlt : s.applied < (s.changed (tried c r n s) (appliedEvent c r n s)).applied := Nat.lt_succ_self _
  rw [offer]
  simp only [ha, invoke_eq_of_change hv h, Bool.not_true, Bool.false_eq_true, if_false]
  generalize s.changed (tried c r n s) (appliedEvent c r n s) = s₁ at hk hlt
  split
  · exact hlt
  next m hm =>
    split
    · exact hlt
    · split
      · exact hlt
      · rw [follow, Option.filter_eq_some_iff] at hm
        have ho := (offer_turns hc hr i left (attempts + 1) hk.1 hm.2).1.kept hc hk.1
        exact hlt.trans_le ho.2.applied_le

end

variable (hc : Tame I c.rules c.resolver)
include hc

/-- A rule changes the tree, or leaves the place to the rules after it. -/
theorem offerAll_cons (i : Nat) {rules : List Rule} (hr : ∀ q ∈ r :: rules, q ∈ c.rules) (hs : I s.tree)
    (hn : s.tree.isAttached n = true) :
    (r.Rewrites (c.of r) s.tree n ∧ s.applied < (offerAll c i (r :: rules) n s).2.applied) ∨
    ∃ s₁, Turns c s s₁ ∧ s₁.applied = s.applied ∧
      offerAll c i (r :: rules) n s = offerAll c (i + 1) rules n s₁ ∧
      (s.disabled = [] → ¬ r.Rewrites (c.of r) s.tree n ∧ s₁ =
        if r.granularity.admits (s.tree.kind n).category then s.idled (tried c r n s) else s) := by
  obtain ⟨hr₁, hr₂⟩ := List.forall_mem_cons.mp hr
  obtain ⟨left, hleft⟩ : ∃ left, max c.limits.retryCap 1 = left + 1 :=
    Nat.exists_eq_succ_of_ne_zero (by omega)
  have ho := offer_turns hc hr₁ i (left + 1) 0 hs hn
  rw [offerAll, hleft]
  split
  next hd => exact .inr ⟨s, .refl, rfl, rfl, fun he => by simp [he] at hd⟩
  · by_cases hw : r.Rewrites (c.of r) s.tree n
    · have hlt := offer_of_rewrites hc hs hn hr₁ i left 0 hw
      refine .inl ⟨hw, ?_⟩
      split
      next s₁ he => rwa [he] at hlt
      next m s₁ he =>
        rw [he] at hlt ho
        have hk := (ho.1.kept hc hs).1
        exact hlt.trans_le ((offerAll_turns hc (i + 1) hr₂ hk (ho.2 m rfl)).1.kept hc hk).2.applied_le
    · have hi := offer_of_idle hc hs hn hr₁ i left 0 hw
      rw [hi] at ho ⊢
      refine .inr ⟨_, ho.1, ?_, rfl, fun _ => ⟨hw, rfl⟩⟩
      split <;> rfl

/-- If no rule changes the tree, the place is still that of the node. -/
theorem offerAll_of_idle (i : Nat) {rules : List Rule} (hr : ∀ r ∈ rules, r ∈ c.rules)
    (hs : I s.tree) (hn : s.tree.isAttached n = true)
    (h : (offerAll c i rules n s).2.applied = s.applied) :
    (offerAll c i rules n s).1 = some n := by
  induction rules generalizing i s with
  | nil => rfl
  | cons r rules ih =>
    rcases offerAll_cons hc i hr hs hn with ⟨-, hlt⟩ | ⟨s₁, hturns, ha, he, -⟩
    · exact absurd h (ne_of_gt hlt)
    · rw [he] at h ⊢
      have hk := hturns.kept hc hs
      exact ih (i + 1) (List.forall_mem_cons.mp hr).2 hk.1 (hk.2.attached (hc.linked hs) ha hn)
        (h.trans ha.symm)

end Session

end TreeTidy

/-! How long a visit takes. More fuel never changes what comes of a visit, and a node is worth one
step for itself and one for each node below it. -/
namespace TreeTidy

open SyntaxTree

namespace Doc

variable {α : Type} {f : α → Doc}

theorem sizeSlots_map (os : List (Option α)) :
    sizeSlots (os.map (Option.map f)) = ((os.filterMap fun o => o).map fun a => (f a).size).sum := by
  induction os with
  | nil => rw [List.map_nil, sizeSlots]; rfl
  | cons o os ih => cases o <;> simp [sizeSlots, ih]

theorem sizeList_map (as : List α) : sizeList (as.map f) = (as.map fun a => (f a).size).sum := by
  induction as with
  | nil => rw [List.map_nil, sizeList]; rfl
  | cons a as ih => simp [sizeList, ih]

theorem size_pos (d : Doc) : 0 < d.size := by
  cases d
  rw [size]
  exact Nat.succ_pos _

end Doc

namespace SyntaxTree

/-- The number of nodes that are in a worklist or below its nodes. -/
def load (t : SyntaxTree) (work : List NodeId) : Nat := (work.map fun n => (t.doc n).size).sum

variable {t : SyntaxTree} {n : NodeId} {work : List NodeId}

@[simp] theorem load_cons : t.load (n :: work) = (t.doc n).size + t.load work := rfl

/-- A node gives way to its children. -/
theorem Linked.load_children (ht : t.Linked) :
    t.load (t.children n ++ work) + 1 = t.load (n :: work) := by
  have h : (t.doc n).size = t.load (t.children n) + 1 := by
    rw [ht.doc_eq, Doc.size, Doc.sizeSlots_map, Doc.sizeList_map, load, children, Node.children,
      List.map_append, List.sum_append]
    rfl
  rw [load_cons, h, load, load, load, List.map_append, List.sum_append]
  omega

end SyntaxTree

namespace Session

variable {c : Setting} {fuel later : Nat} {work : List NodeId} {n : NodeId} {s s' : State}

/-- What is to be visited after a stop at an attached node. -/
def worklist (work : List NodeId) (out : Option NodeId × State) : List NodeId :=
  out.1.elim [] out.2.tree.children ++ work

theorem visit_step (hn : s.tree.isAttached n = true) (fuel : Nat) (work : List NodeId) :
    visit c (fuel + 1) (n :: work) s =
      visit c fuel (worklist work (offerAll c 0 c.rules n s)) (offerAll c 0 c.rules n s).2 := by
  rw [visit, if_neg (by simp [hn])]
  cases offerAll c 0 c.rules n s with
  | mk place s₁ => cases place <;> rfl

/-- More fuel makes no difference. -/
theorem visit_mono (h : visit c fuel work s = some s') (hf : fuel ≤ later) :
    visit c later work s = some s' := by
  induction fuel generalizing later work s with
  | zero =>
    cases work with
    | nil => cases later <;> exact h
    | cons n work => cases h
  | succ fuel ih =>
    cases work with
    | nil => cases later <;> exact h
    | cons n work =>
      obtain ⟨later, rfl⟩ := Nat.exists_eq_succ_of_ne_zero (Nat.ne_zero_of_lt hf)
      have hf := Nat.le_of_succ_le_succ hf
      rw [visit] at h ⊢
      split at h
      next hn =>
        rw [if_pos hn]
        exact ih h hf
      next hn =>
        rw [if_neg hn]
        split at h <;> exact ih h hf

theorem pass_mono (h : pass c fuel s = some s') (hf : fuel ≤ later) : pass c later s = some s' := by
  rw [pass] at h ⊢
  split at h
  · exact h
  · exact visit_mono h hf

end Session

end TreeTidy
