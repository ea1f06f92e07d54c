import TreeTidy.Engine.Edit
import TreeTidy.Proofs.Tree.Clone
import TreeTidy.Proofs.Tree.Edits
import TreeTidy.Proofs.Tree.Laid
/-!
Trees as they come about: from the empty tree by any of the public operations, of which some may
be refused. All of them are linked.
-/
namespace TreeTidy.SyntaxTree

variable {t u : SyntaxTree} {c n p : NodeId}

/-- A public operation with its arguments. -/
inductive Operation
  | setRoot (n : NodeId)
  | create (spec : NodeSpec)
  | clone (n : NodeId)
  | setType (n : NodeId) (ty : Option TypeDesc)
  | change (c : Change)

/-- The tree after an operation; a refused one leaves it as it is. -/
def Operation.perform (t : SyntaxTree) : Operation → SyntaxTree
  | setRoot n => (t.setRoot? n).toOption.getD t
  | create s => ((t.create? s).toOption.map Prod.snd).getD t
  | clone n => (t.clone n).2
  | setType n ty => t.setType n ty
  | change c => (c.appliedTo? t).getD t

/-- The tree after some operations, from the empty one on. -/
def history (id : Nat) (ops : List Operation) : SyntaxTree := ops.foldl Operation.perform (empty id)

theorem history_succ {ops : List Operation} {op : Operation} {k : Nat} (id : Nat)
    (h : ops[k]? = some op) :
    history id (ops.take (k + 1)) = op.perform (history id (ops.take k)) := by
  rw [history, List.take_add_one, h, Option.toList_some, List.foldl_append]
  rfl

/-- What is true at first and kept by every operation is true all the time. -/
theorem forall_history {P : SyntaxTree → Prop} {id : Nat} {ops : List Operation} (hempty : P (empty id))
    (hstep : ∀ k op, ops[k]? = some op → P (history id (ops.take k)) →
      P (op.perform (history id (ops.take k)))) (k : Nat) : P (history id (ops.take k)) := by
  induction k with
  | zero => exact hempty
  | succ k ih =>
    cases h : ops[k]? with
    | some op => exact history_succ id h ▸ hstep k op h ih
    | none =>
      have hlen := List.getElem?_eq_none_iff.mp h
      rw [List.take_of_length_le (by omega)]
      rwa [List.take_of_length_le hlen] at ih

theorem linked_empty (id : Nat) : (empty id).Linked := by
  have hn : ∀ n, (empty id).node n = Node.absent := fun n => node_of_size_le (Nat.zero_le n)
  have hc : ∀ c p, ¬ (empty id).Child c p := by
    intro c p h
    rw [Child, children, hn] at h
    cases h
  refine ⟨fun h => (by cases h), fun h => absurd h (hc _ _), fun h => absurd h (hc _ _), fun h => ?_,
    fun p => ?_, WellFounded.intro fun p => Acc.intro p fun c h => absurd h (hc c p)⟩
  · rw [parent?, hn] at h
    cases h
  · rw [children, hn]
    exact List.nodup_nil

namespace Linked

variable (ht : t.Linked)
include ht

theorem appliedTo? {c : Change} (h : c.appliedTo? t = some u) : u.Linked := by
  cases c with
  | replace old new => exact ht.replace? h
  | remove n => exact ht.remove? h
  | insertBefore anchor new => exact ht.insertAt? h (Nat.zero_le 1)
  | insertAfter anchor new => exact ht.insertAt? h (le_refl 1)
  | splice first count news => exact ht.splice? h

theorem perform (op : Operation) : (op.perform t).Linked := by
  cases op with
  | setRoot n =>
    rw [Operation.perform]
    cases h : t.setRoot? n with
    | ok u => exact ht.setRoot? h
    | error e => exact ht
  | create s =>
    rw [Operation.perform]
    cases h : t.create? s with
    | ok r => exact (ht.create? h).linked
    | error e => exact ht
  | clone n => exact (ht.clone n).linked
  | setType n ty => exact ht.setType n ty
  | change c =>
    rw [Operation.perform]
    cases h : c.appliedTo? t with
    | some u => exact ht.appliedTo? h
    | none => exact ht

end Linked

theorem linked_foldl_perform (ht : t.Linked) (ops : List Operation) :
    (ops.foldl Operation.perform t).Linked := by
  induction ops generalizing t with
  | nil => exact ht
  | cons op ops ih => exact ih (ht.perform op)

theorem linked_history (id : Nat) (ops : List Operation) : (history id ops).Linked :=
  linked_foldl_perform (linked_empty id) ops

namespace Linked

variable (ht : t.Linked)
include ht

/-- One step up is one step less that is left: the depth grows. -/
theorem parents_end (k : Nat) (n : NodeId) (hk : t.size ≤ k + depth t n) :
    (fun o : Option NodeId => o.bind t.parent?)^[k + 1] (some n) = none := by
  induction k generalizing n with
  | zero =>
    cases hp : t.parent? n with
    | none => exact hp
    | some p =>
      have hd := ht.depth_lt_of_child (ht.held hp).1
      have hs := ht.depth_lt_size (lt_of_alive (ht.parent_alive hp))
      omega
  | succ k ih =>
    rw [Function.iterate_succ_apply, Option.bind_some]
    cases hp : t.parent? n with
    | none => exact Function.iterate_fixed rfl _
    | some p =>
      have hd := ht.depth_lt_of_child (ht.held hp).1
      exact ih p (by omega)

theorem parents_acyclic (n : NodeId) : ¬ Relation.TransGen (fun a b => t.parent? a = some b) n n :=
  fun h => ht.below_irrefl n (Relation.TransGen.mono (fun _ _ hp => (ht.held hp).1) _ _ h)

end Linked

/-- What it means for the links of a tree to agree. -/
structure LinksAgree (t : SyntaxTree) : Prop where
  root : ∀ {r}, t.root = some r → t.isAlive r = true ∧ t.parent? r = none
  /-- A child of a living node is alive, names it as its parent, and is held nowhere else. -/
  child : ∀ {p pos c}, t.isAlive p = true → (t.node p).at? pos = some c →
    t.isAlive c = true ∧ t.parent? c = some p ∧
    ∀ {q pos'}, t.isAlive q = true → (t.node q).at? pos' = some c → q = p ∧ pos' = pos
  /-- A node is held by the living node that it names as its parent. -/
  parent : ∀ {c p}, t.parent? c = some p → t.isAlive p = true ∧ ∃ pos, (t.node p).at? pos = some c
  dead : ∀ {p pos c}, t.isAlive p = false → (t.node p).at? pos = some c → t.isAlive c = false
  acyclic : ∀ n, ¬ Relation.TransGen (fun a b => t.parent? a = some b) n n
  /-- The way up ends at a node without a parent, in no more steps than there are nodes. -/
  ends : ∀ n, (fun o : Option NodeId => o.bind t.parent?)^[t.size + 1] (some n) = none
  ancestors : ∀ {fuel} n, t.size ≤ fuel → t.above fuel (t.parent? n) = t.ancestors n
  valid : t.validate.linkFaults = []

/-- The links of a tree agree whatever operations made it. -/
theorem history_links_agree (id : Nat) (ops : List Operation) : (history id ops).LinksAgree := by
  have ht := linked_history id ops
  have hat : ∀ {p pos c}, ((history id ops).node p).at? pos = some c →
    (history id ops).Child c p := fun h => Node.mem_children_iff.mpr ⟨_, h⟩
  refine ⟨ht.root, fun {p pos c} hp hc => ?_, fun {c p} hc => ?_, fun {p pos c} hp hc => ?_,
    ht.parents_acyclic, fun n => ht.parents_end _ n (Nat.le_add_right _ _),
    fun n hf => ht.above_eq_ancestors hf, ht.validate_linkFaults⟩
  · have ha := (ht.child (hat hc)).2.trans hp
    refine ⟨ha, ht.named (hat hc) hp, fun {q pos'} hq hc' => ?_⟩
    obtain rfl := ht.child_unique (hat hc') (hat hc) ha
    exact ⟨rfl, Node.at?_unique (ht.nodup q) hc' hc⟩
  · exact ⟨ht.parent_alive hc, Node.mem_children_iff.mp (ht.held hc).1⟩
  · exact (ht.child (hat hc)).2.trans hp

end TreeTidy.SyntaxTree
