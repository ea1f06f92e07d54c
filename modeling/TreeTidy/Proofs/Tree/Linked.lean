import Mathlib.Data.Finset.Card
import Mathlib.Data.Finset.Range
import Mathlib.Logic.Relation
import Mathlib.Order.WellFounded
import Mathlib.Tactic.Common
import TreeTidy.Tree.Edit
/-!
Trees whose links agree. What the elementary changes do to each node is stated first; a node that
was never made reads as `Node.absent`, so it is stated for every node. A linked tree has no cycles,
so every node has only so many nodes below it, and the walks that are bounded by the number of nodes
are never cut short.
-/
namespace TreeTidy.SyntaxTree

variable {t u : SyntaxTree} {m n : NodeId}

@[simp] theorem size_bump : t.bump.size = t.size := rfl

@[simp] theorem node_bump : t.bump.node n = t.node n := rfl

@[simp] theorem root_bump : t.bump.root = t.root := rfl

@[simp] theorem id_bump : t.bump.id = t.id := rfl

@[simp] theorem revision_bump : t.bump.revision = t.revision + 1 := rfl

theorem node_of_size_le (h : t.size ≤ n) : t.node n = Node.absent := by
  have hn : ¬ n < t.nodes.size := Nat.not_lt.mpr h
  simp [node, Array.getD, hn]

theorem lt_of_alive (h : t.isAlive n = true) : n < t.size := by
  by_contra hn
  rw [isAlive, node_of_size_le (Nat.not_lt.mp hn)] at h
  exact Bool.noConfusion h

/-- Two trees are the same if their nodes, their roots and their marks are. -/
theorem eq_of_nodes (hs : t.size = u.size) (hn : ∀ m, t.node m = u.node m)
    (hr : t.root = u.root) (hi : t.id = u.id) (hv : t.revision = u.revision) : t = u := by
  obtain ⟨ns, r, i, v⟩ := t
  obtain ⟨ms, r', i', v'⟩ := u
  have h : ns = ms := by
    apply Array.ext hs
    intro k hk hk'
    have := hn k
    simpa [node, Array.getD, hk, hk'] using this
  simp only at hr hi hv
  rw [h, hr, hi, hv]

section Update

variable {f : Node → Node}

@[simp] theorem size_update : (t.update n f).size = t.size := by simp [update, size]

@[simp] theorem root_update : (t.update n f).root = t.root := rfl

@[simp] theorem id_update : (t.update n f).id = t.id := rfl

@[simp] theorem revision_update : (t.update n f).revision = t.revision := rfl

theorem node_update : (t.update n f).node m =
    if m = n ∧ m < t.size then f (t.node m) else t.node m := by
  by_cases hm : m < t.nodes.size
  · by_cases h : m = n
    · subst h
      simp [update, node, Array.getD, size, hm, Array.getElem_modify_self]
    · simp [update, node, Array.getD, hm, h, Array.getElem_modify, Ne.symm h]
  · have h : t.size ≤ m := Nat.not_lt.mp hm
    rw [node_of_size_le h, node_of_size_le (by simpa using h), if_neg]
    exact fun hc => hm hc.2

theorem node_update_self (h : n < t.size) : (t.update n f).node n = f (t.node n) := by
  rw [node_update, if_pos ⟨rfl, h⟩]

theorem node_update_of_ne (h : m ≠ n) : (t.update n f).node m = t.node m := by
  rw [node_update, if_neg fun hc => h hc.1]

/-- The same change made to several nodes, of which a second one to the same node says nothing new. -/
theorem node_foldl_update (hf : ∀ d, f (f d) = f d) (ns : List NodeId) (t : SyntaxTree) :
    (ns.foldl (fun u c => u.update c f) t).node m =
      if m ∈ ns ∧ m < t.size then f (t.node m) else t.node m := by
  induction ns generalizing t with
  | nil => simp
  | cons c cs ih =>
    rw [List.foldl_cons, ih, size_update, node_update]
    by_cases hm : m < t.size <;> by_cases hc : m = c <;> by_cases hs : m ∈ cs <;>
      simp_all

theorem marks_foldl_update (ns : List NodeId) (t : SyntaxTree) :
    (ns.foldl (fun u c => u.update c f) t).size = t.size ∧
    (ns.foldl (fun u c => u.update c f) t).root = t.root ∧
    (ns.foldl (fun u c => u.update c f) t).id = t.id ∧
    (ns.foldl (fun u c => u.update c f) t).revision = t.revision := by
  induction ns generalizing t with
  | nil => simp
  | cons c cs ih => simpa using ih (t.update c f)

end Update

end TreeTidy.SyntaxTree

/-! Links between parents and children. -/
namespace TreeTidy.SyntaxTree

variable {t : SyntaxTree} {a b c m n p r : NodeId}

/-- `c` is in a slot or in the list of `p`. -/
def Child (t : SyntaxTree) (c p : NodeId) : Prop := c ∈ t.children p

/-- `m` is a child of `n`, or a child of a node below `n`. -/
def Below (t : SyntaxTree) (m n : NodeId) : Prop := Relation.TransGen t.Child m n

/-- `m` is `n`, or below it. -/
def Within (t : SyntaxTree) (m n : NodeId) : Prop := Relation.ReflTransGen t.Child m n

/-- Parent links and children agree, dead nodes hold dead nodes only, and there are no cycles. -/
structure Linked (t : SyntaxTree) : Prop where
  root : ∀ {r}, t.root = some r → t.isAlive r = true ∧ t.parent? r = none
  child : ∀ {c p}, t.Child c p → c < t.size ∧ t.isAlive c = t.isAlive p
  named : ∀ {c p}, t.Child c p → t.isAlive p = true → t.parent? c = some p
  held : ∀ {c p}, t.parent? c = some p → t.Child c p ∧ t.isAlive c = true
  nodup : ∀ p, (t.children p).Nodup
  acyclic : WellFounded t.Child

theorem Within.alive (ht : t.Linked) (h : t.Within m n) : t.isAlive m = t.isAlive n := by
  induction h with
  | refl => rfl
  | tail _ hc ih => rw [ih, (ht.child hc).2]

theorem Below.lt_size (ht : t.Linked) (h : t.Below m n) : m < t.size := by
  obtain ⟨c, hc, -⟩ := Relation.TransGen.head'_iff.mp h
  exact (ht.child hc).1

theorem within_iff : t.Within m n ↔ m = n ∨ t.Below m n := by
  rw [Within, Below, Relation.reflTransGen_iff_eq_or_transGen]
  simp only [eq_comm]

theorem within_iff_child : t.Within m n ↔ m = n ∨ ∃ c, t.Child c n ∧ t.Within m c := by
  constructor
  · intro h
    rcases Relation.ReflTransGen.cases_tail h with h | ⟨c, hm, hc⟩
    · exact .inl h.symm
    · exact .inr ⟨c, hc, hm⟩
  · rintro (rfl | ⟨c, hc, hm⟩)
    · exact .refl
    · exact hm.tail hc

theorem below_iff_child : t.Below m n ↔ ∃ c, t.Child c n ∧ t.Within m c := by
  simp only [Below, Relation.TransGen.tail'_iff, Within, and_comm]

theorem Within.below (h : t.Within m c) (hc : t.Child c n) : t.Below m n :=
  below_iff_child.mpr ⟨c, hc, h⟩

namespace Linked

theorem below_irrefl (ht : t.Linked) (n : NodeId) : ¬ t.Below n n :=
  fun h => ht.acyclic.transGen.irrefl.irrefl n h

theorem child_ne (ht : t.Linked) (h : t.Child c p) : c ≠ p := by
  rintro rfl
  exact ht.below_irrefl c (.single h)

/-- The node that holds another one is the only one alive that does. -/
theorem child_unique (ht : t.Linked) (ha : t.Child c a) (hb : t.Child c b)
    (hc : t.isAlive c = true) : a = b := by
  have hpa := ht.named ha ((ht.child ha).2 ▸ hc)
  have hpb := ht.named hb ((ht.child hb).2 ▸ hc)
  exact Option.some.inj (hpa.symm.trans hpb)

theorem parent_iff (ht : t.Linked) : t.parent? c = some p ↔ t.Child c p ∧ t.isAlive c = true := by
  refine ⟨ht.held, fun h => ht.named h.1 ?_⟩
  rw [← (ht.child h.1).2]
  exact h.2

theorem parent_alive (ht : t.Linked) (h : t.parent? c = some p) : t.isAlive p = true := by
  obtain ⟨hc, ha⟩ := ht.held h
  rw [← (ht.child hc).2]
  exact ha

/-- Nodes that both have a node below them lie in a line. -/
theorem within_total (ht : t.Linked) (hn : t.isAlive n = true) (ha : t.Within n a)
    (hb : t.Within n b) : t.Within a b ∨ t.Within b a := by
  induction ha using Relation.ReflTransGen.head_induction_on with
  | refl => exact .inl hb
  | @head m c hmc hca ih =>
    rcases Relation.ReflTransGen.cases_head hb with rfl | ⟨d, hmd, hdb⟩
    · exact .inr (hca.head hmc)
    · have hcd := ht.child_unique hmc hmd hn
      exact ih ((ht.child hmc).2 ▸ hn) (hcd ▸ hdb)

/-- The subtrees of different children have no node in common. -/
theorem disjoint_children (ht : t.Linked) (hp : t.isAlive p = true) (ha : t.Child m p) (hb : t.Child n p)
    (hne : m ≠ n) : ¬ (t.Within c m ∧ t.Within c n) := by
  rintro ⟨hm, hn⟩
  have hc : t.isAlive c = true := by rw [hm.alive ht, (ht.child ha).2, hp]
  have key : ∀ {a b}, t.Child a p → t.Child b p → a ≠ b → ¬ t.Within a b := by
    intro a b ha hb hne hw
    rcases Relation.ReflTransGen.cases_head hw with he | ⟨q, hq, hqb⟩
    · exact hne he
    · have he := ht.child_unique hq ha ((ht.child ha).2.trans hp)
      exact ht.below_irrefl p ((he ▸ hqb : t.Within p b).below hb)
  rcases ht.within_total hc hm hn with h | h
  · exact key ha hb hne h
  · exact key hb ha hne.symm h

section Depth

open Classical in
/-- The number of nodes below a node. -/
noncomputable def depth (t : SyntaxTree) (n : NodeId) : Nat :=
  ((Finset.range t.size).filter fun m => t.Below m n).card

open Classical in
theorem depth_lt_of_child (ht : t.Linked) (h : t.Child c p) : depth t c < depth t p := by
  apply Finset.card_lt_card
  refine ⟨?_, ?_⟩
  · intro m hm
    simp only [Finset.mem_filter] at hm ⊢
    exact ⟨hm.1, hm.2.tail h⟩
  · intro hs
    have hc : c ∈ (Finset.range t.size).filter fun m => t.Below m c :=
      hs (by simpa using ⟨(ht.child h).1, .single h⟩)
    exact ht.below_irrefl c (Finset.mem_filter.mp hc).2

open Classical in
theorem depth_lt_size (ht : t.Linked) (hn : n < t.size) : depth t n < t.size := by
  rw [← Finset.card_range t.size]
  apply Finset.card_lt_card
  refine ⟨Finset.filter_subset _ _, ?_⟩
  intro hs
  exact ht.below_irrefl n (Finset.mem_filter.mp (hs (Finset.mem_range.mpr hn))).2

theorem depth_le_size (t : SyntaxTree) (n : NodeId) : depth t n ≤ t.size := by
  classical
  exact (Finset.card_filter_le _ _).trans (Finset.card_range _).le

end Depth

end Linked

end TreeTidy.SyntaxTree
