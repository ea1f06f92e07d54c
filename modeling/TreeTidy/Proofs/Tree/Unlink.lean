import TreeTidy.Proofs.Tree.Regraft
/-!
Taking nodes from their parents. Nothing else changes, so what a node had above it stays there unless
it went with the node that was taken.
-/
namespace TreeTidy.SyntaxTree

variable {t : SyntaxTree} {a c m n p : NodeId} {pos : Position} {ns : List NodeId}

theorem unlink_of_parent_none (h : t.parent? n = none) : t.unlink n = t := by
  simp only [unlink, h]

theorem graft_vacate (hp : t.isAlive p = true) (h : (t.node p).at? pos = some n) :
    t.Graft p (vacate (t.node p) pos).slots (vacate (t.node p) pos).list [n] []
      (vacate (t.node p) pos).children where
  alive := hp
  before := Node.perm_vacate h
  after := .refl _
  nodup := List.nodup_nil
  detached _ hc := absurd hc List.not_mem_nil
  outside _ hc := absurd hc List.not_mem_nil

namespace Linked

/-- The position that is looked up for a node is the one where its parent holds it. -/
theorem position?_eq_some (ht : t.Linked) (h : t.parent? n = some p) :
    t.position? n = some pos ↔ (t.node p).at? pos = some n := by
  rw [position?, h, Option.bind_some]
  exact Node.positionIn_eq_some (ht.nodup p)

theorem position?_isSome (ht : t.Linked) (h : t.parent? n = some p) :
    ∃ pos, t.position? n = some pos ∧ (t.node p).at? pos = some n := by
  obtain ⟨pos, hpos⟩ := Node.mem_children_iff.mp (ht.held h).1
  exact ⟨pos, (ht.position?_eq_some h).mpr hpos, hpos⟩

/-- Unlinking is a regraft that takes nothing in. -/
theorem unlink_eq (ht : t.Linked) (h : t.parent? n = some p) : ∃ pos,
    (t.node p).at? pos = some n ∧ t.unlink n =
      t.regraft p (vacate (t.node p) pos).slots (vacate (t.node p) pos).list [n] [] := by
  obtain ⟨pos, hpos, hat⟩ := ht.position?_isSome h
  have hg := graft_vacate (ht.parent_alive h) hat
  have hne : n ≠ p := ht.child_ne (ht.held h).1
  refine ⟨pos, hat, eq_of_nodes ?_ (fun m => ?_) ?_ ?_ ?_⟩
  · simp [unlink, h, hpos]
  · by_cases hm : m = n
    · subst hm
      have hlt := lt_of_alive (ht.held h).2
      rw [hg.node ht, unlink, h, hpos, node_update_self (by simpa using hlt),
        node_update_of_ne hne]
      simp [hne]
    · by_cases hmp : m = p
      · subst hmp
        have hlt := lt_of_alive (ht.parent_alive h)
        rw [hg.node ht, unlink, h, hpos, node_update_of_ne hm, node_update_self hlt]
        cases pos <;> simp [vacate, hm]
      · rw [hg.node ht, unlink, h, hpos, node_update_of_ne hm, node_update_of_ne hmp]
        simp [hm, hmp]
  all_goals simp [unlink, h, hpos]

theorem unlink (ht : t.Linked) (n : NodeId) : (t.unlink n).Linked := by
  cases h : t.parent? n with
  | none => rwa [unlink_of_parent_none h]
  | some p =>
    obtain ⟨pos, hat, he⟩ := ht.unlink_eq h
    rw [he]
    exact (graft_vacate (ht.parent_alive h) hat).linked ht

end Linked

section Frame

theorem marks_unlink (t : SyntaxTree) (n : NodeId) : (t.unlink n).size = t.size ∧
    (t.unlink n).root = t.root ∧ (t.unlink n).id = t.id ∧ (t.unlink n).revision = t.revision := by
  unfold unlink
  split
  · simp
  · split <;> simp

variable (ht : t.Linked)
include ht

/-- Of a node that neither is taken nor holds the one that is, nothing changes. -/
theorem node_unlink_of_ne (hm : m ≠ n) (hp : t.parent? n ≠ some m) :
    (t.unlink n).node m = t.node m := by
  cases h : t.parent? n with
  | none => rw [unlink_of_parent_none h]
  | some p =>
    obtain ⟨pos, hat, he⟩ := ht.unlink_eq h
    have hmp : m ≠ p := fun he => hp (he ▸ h)
    rw [he, (graft_vacate (ht.parent_alive h) hat).node ht]
    simp [hm, hmp]

theorem node_unlink_self : (t.unlink n).node n = { t.node n with parent := none } := by
  cases h : t.parent? n with
  | none => rw [unlink_of_parent_none h, ← h, parent?]
  | some p =>
    obtain ⟨pos, hat, he⟩ := ht.unlink_eq h
    have hne : n ≠ p := ht.child_ne (ht.held h).1
    rw [he, (graft_vacate (ht.parent_alive h) hat).node ht]
    simp [hne]

theorem data_unlink (hp : t.parent? n ≠ some m) :
    ((t.unlink n).node m).data = (t.node m).data := by
  by_cases hm : m = n
  · rw [hm, node_unlink_self ht]
    rfl
  · rw [node_unlink_of_ne ht hm hp]

theorem successor_unlink (m : NodeId) : ((t.unlink n).node m).successor = (t.node m).successor := by
  cases h : t.parent? n with
  | none => rw [unlink_of_parent_none h]
  | some p =>
    obtain ⟨pos, hat, he⟩ := ht.unlink_eq h
    rw [he, (graft_vacate (ht.parent_alive h) hat).node ht]

theorem isAlive_unlink (m : NodeId) : (t.unlink n).isAlive m = t.isAlive m := by
  cases h : t.parent? n with
  | none => rw [unlink_of_parent_none h]
  | some p =>
    obtain ⟨pos, hat, he⟩ := ht.unlink_eq h
    rw [he, (graft_vacate (ht.parent_alive h) hat).isAlive ht]

theorem kind_unlink (m : NodeId) : (t.unlink n).kind m = t.kind m := by
  cases h : t.parent? n with
  | none => rw [unlink_of_parent_none h]
  | some p =>
    obtain ⟨pos, hat, he⟩ := ht.unlink_eq h
    rw [he, (graft_vacate (ht.parent_alive h) hat).kind ht]

theorem parent_unlink (m : NodeId) :
    (t.unlink n).parent? m = if m = n then none else t.parent? m := by
  cases h : t.parent? n with
  | none =>
    rw [unlink_of_parent_none h]
    by_cases hm : m = n
    · rw [if_pos hm, hm, h]
    · rw [if_neg hm]
  | some p =>
    obtain ⟨pos, hat, he⟩ := ht.unlink_eq h
    rw [he, (graft_vacate (ht.parent_alive h) hat).parent? ht]
    simp

theorem child_unlink : (t.unlink n).Child c m ↔ t.Child c m ∧ (t.parent? n = some m → c ≠ n) := by
  cases h : t.parent? n with
  | none => simp [unlink_of_parent_none h]
  | some p =>
    obtain ⟨pos, hat, he⟩ := ht.unlink_eq h
    have hg := graft_vacate (ht.parent_alive h) hat
    rw [he, hg.child_iff ht]
    by_cases hm : m = p
    · subst hm
      have hk : ∀ {c}, c ∈ (vacate (t.node m) pos).children → c ≠ n := fun hc he =>
        (hg.kept_disjoint ht hc).2 (List.mem_singleton.mpr he)
      simp only [if_true, List.not_mem_nil, false_or, hg.mem_children, List.mem_singleton,
        forall_const]
      exact ⟨fun hc => ⟨.inr hc, hk hc⟩, fun hc => hc.1.resolve_left hc.2⟩
    · have : ¬ p = m := fun he => hm he.symm
      simp [hm, this]

theorem within_of_unlink (h : (t.unlink n).Within m a) : t.Within m a := by
  induction h with
  | refl => exact .refl
  | tail _ hc ih => exact ih.tail ((child_unlink ht).mp hc).1

theorem within_unlink (h : t.Within m a) (hn : ¬ t.Within m n) : (t.unlink n).Within m a := by
  induction h using Relation.ReflTransGen.head_induction_on with
  | refl => exact .refl
  | @head b c hbc _ ih =>
    have hb : (t.unlink n).Child b c := (child_unlink ht).mpr ⟨hbc, fun _ he => hn (he ▸ .refl)⟩
    exact (ih fun hw => hn (hw.head hbc)).head hb

theorem attached_unlink (h : t.isAttached m = true) (hn : ¬ t.Within m n) :
    (t.unlink n).isAttached m = true := by
  obtain ⟨r, hr, hm⟩ := ht.isAttached_iff.mp h
  exact (ht.unlink n).isAttached_iff.mpr
    ⟨r, (marks_unlink t n).2.1.trans hr, within_unlink ht hm hn⟩

theorem detached_unlink (h : t.isAlive n = true) (hr : t.root ≠ some n) :
    (t.unlink n).isDetached n = true := by
  refine isDetached_iff.mpr ⟨(isAlive_unlink ht n).trans h, ?_, ?_⟩
  · rw [parent_unlink ht, if_pos rfl]
  · rwa [(marks_unlink t n).2.1]

theorem successor_foldl_unlink (ns : List NodeId) (m : NodeId) :
    ((ns.foldl unlink t).node m).successor = (t.node m).successor := by
  induction ns generalizing t with
  | nil => rfl
  | cons n ns ih => exact (ih (ht.unlink n)).trans (successor_unlink ht m)

end Frame

/-- What is kept when nodes are taken from their parents, none of which is in or above `p`. -/
structure Freed (t u : SyntaxTree) (ns : List NodeId) (p : NodeId) : Prop where
  linked : u.Linked
  marks : u.size = t.size ∧ u.root = t.root ∧ u.id = t.id ∧ u.revision = t.revision
  attached : u.isAttached p = true
  holder : u.node p = t.node p
  isAlive : ∀ m, u.isAlive m = t.isAlive m
  kind : ∀ m, u.kind m = t.kind m
  parent : ∀ m, u.parent? m = if m ∈ ns then none else t.parent? m
  data : ∀ m, (∀ n ∈ ns, t.parent? n ≠ some m) → (u.node m).data = (t.node m).data

theorem Linked.freed_foldl_unlink (ht : t.Linked) (hp : t.isAttached p = true)
    (h : ∀ n ∈ ns, ¬ t.Within p n ∧ t.parent? n ≠ some p) :
    t.Freed (ns.foldl SyntaxTree.unlink t) ns p := by
  induction ns generalizing t with
  | nil =>
    exact ⟨ht, ⟨rfl, rfl, rfl, rfl⟩, hp, rfl, fun _ => rfl, fun _ => rfl, fun m => by simp,
      fun _ _ => rfl⟩
  | cons n ns ih =>
    obtain ⟨hn, hnp⟩ := h n (.head _)
    have hu := ih (ht.unlink n) (attached_unlink ht hp hn) fun a ha => by
      obtain ⟨haw, hap⟩ := h a (.tail _ ha)
      refine ⟨fun hw => haw (within_of_unlink ht hw), ?_⟩
      rw [parent_unlink ht]
      split
      · simp
      · exact hap
    have hne : p ≠ n := fun he => hn (he ▸ .refl)
    have hm := marks_unlink t n
    refine ⟨hu.linked, ?_, hu.attached, ?_, ?_, ?_, ?_, ?_⟩
    · exact ⟨hu.marks.1.trans hm.1, hu.marks.2.1.trans hm.2.1, hu.marks.2.2.1.trans hm.2.2.1,
        hu.marks.2.2.2.trans hm.2.2.2⟩
    · exact hu.holder.trans (node_unlink_of_ne ht hne hnp)
    · intro m
      exact (hu.isAlive m).trans (isAlive_unlink ht m)
    · intro m
      exact (hu.kind m).trans (kind_unlink ht m)
    · intro m
      rw [List.foldl_cons, hu.parent, parent_unlink ht]
      by_cases hmn : m = n <;> by_cases hms : m ∈ ns <;> simp [hmn, hms]
    · intro m hmn
      refine (hu.data m ?_).trans (data_unlink ht (hmn n (.head _)))
      intro a ha
      rw [parent_unlink ht]
      split
      · simp
      · exact hmn a (.tail _ ha)

end TreeTidy.SyntaxTree
