import TreeTidy.Proofs.Tree.Reach
/-!
The one change of links that all edits are made of: a node gives up some of its children and takes
detached nodes in. Links stay right as long as the node is not below one that it takes in.
-/
namespace TreeTidy.SyntaxTree

variable {t u : SyntaxTree} {c m n p : NodeId} {outs ins kept : List NodeId}
  {slots : List (Option NodeId)} {list : List NodeId}

/-- Has a node hold other children; `outs` lose their parent and `ins` have the node as theirs. -/
def regraft (t : SyntaxTree) (p : NodeId) (slots : List (Option NodeId)) (list : List NodeId)
    (outs ins : List NodeId) : SyntaxTree :=
  let t := t.update p fun d => { d with slots := slots, list := list }
  let t := outs.foldl (fun u c => u.update c fun d => { d with parent := none }) t
  ins.foldl (fun u c => u.update c fun d => { d with parent := some p }) t

/-- The condition under which `regraft` keeps the links right. -/
structure Graft (t : SyntaxTree) (p : NodeId) (slots : List (Option NodeId)) (list : List NodeId)
    (outs ins kept : List NodeId) : Prop where
  alive : t.isAlive p = true
  before : (t.children p).Perm (outs ++ kept)
  after : ({ t.node p with slots := slots, list := list } : Node).children.Perm (ins ++ kept)
  nodup : ins.Nodup
  detached : ∀ c ∈ ins, t.isDetached c = true
  outside : ∀ c ∈ ins, ¬ t.Within p c

@[simp] theorem size_regraft : (t.regraft p slots list outs ins).size = t.size := by
  simp [regraft, (marks_foldl_update _ _).1]

@[simp] theorem root_regraft : (t.regraft p slots list outs ins).root = t.root := by
  simp [regraft, (marks_foldl_update _ _).2.1]

@[simp] theorem id_regraft : (t.regraft p slots list outs ins).id = t.id := by
  simp [regraft, (marks_foldl_update _ _).2.2.1]

@[simp] theorem revision_regraft : (t.regraft p slots list outs ins).revision = t.revision := by
  simp [regraft, (marks_foldl_update _ _).2.2.2]

theorem node_regraft (hm : m < t.size) : (t.regraft p slots list outs ins).node m =
    { t.node m with
      slots := if m = p then slots else (t.node m).slots
      list := if m = p then list else (t.node m).list
      parent := if m ∈ ins then some p else if m ∈ outs then none else (t.node m).parent } := by
  rw [regraft, node_foldl_update, (marks_foldl_update _ _).1, node_foldl_update, size_update,
    node_update]
  · by_cases hp : m = p <;> by_cases hi : m ∈ ins <;> by_cases ho : m ∈ outs <;> simp_all
  · exact fun _ => rfl
  · exact fun _ => rfl

namespace Graft

variable (h : t.Graft p slots list outs ins kept)
include h

theorem mem_children : t.Child c p ↔ c ∈ outs ∨ c ∈ kept := by
  rw [Child, h.before.mem_iff, List.mem_append]

theorem ins_alive (hc : c ∈ ins) : t.isAlive c = true := (isDetached_iff.mp (h.detached c hc)).1

theorem not_ins_of_parent {q : NodeId} (hq : t.parent? c = some q) : c ∉ ins := by
  intro hc
  rw [(isDetached_iff.mp (h.detached c hc)).2.1] at hq
  cases hq

theorem out_child (hc : c ∈ outs) : t.Child c p := h.mem_children.mpr (.inl hc)

theorem node (ht : t.Linked) (m : NodeId) : (t.regraft p slots list outs ins).node m =
    { t.node m with
      slots := if m = p then slots else (t.node m).slots
      list := if m = p then list else (t.node m).list
      parent := if m ∈ ins then some p else if m ∈ outs then none else (t.node m).parent } := by
  by_cases hm : m < t.size
  · exact node_regraft hm
  · have hp : m ≠ p := fun he => hm (he ▸ lt_of_alive h.alive)
    have hi : m ∉ ins := fun hc => hm (lt_of_alive (h.ins_alive hc))
    have ho : m ∉ outs := fun hc => hm (ht.child (h.out_child hc)).1
    have hs : t.size ≤ m := Nat.not_lt.mp hm
    rw [node_of_size_le hs, node_of_size_le (by simpa using hs), if_neg hp, if_neg hp, if_neg hi,
      if_neg ho]

theorem isAlive (ht : t.Linked) (m : NodeId) :
    (t.regraft p slots list outs ins).isAlive m = t.isAlive m := by
  rw [SyntaxTree.isAlive, h.node ht]; rfl

theorem kind (ht : t.Linked) (m : NodeId) :
    (t.regraft p slots list outs ins).kind m = t.kind m := by
  rw [SyntaxTree.kind, h.node ht]; rfl

theorem children_self (ht : t.Linked) :
    (t.regraft p slots list outs ins).children p =
      ({ t.node p with slots := slots, list := list } : Node).children := by
  rw [children, h.node ht, if_pos rfl, if_pos rfl]
  rfl

theorem children_of_ne (ht : t.Linked) (hm : m ≠ p) :
    (t.regraft p slots list outs ins).children m = t.children m := by
  rw [children, h.node ht, if_neg hm, if_neg hm]; rfl

theorem parent? (ht : t.Linked) (m : NodeId) : (t.regraft p slots list outs ins).parent? m =
    if m ∈ ins then some p else if m ∈ outs then none else t.parent? m := by
  rw [SyntaxTree.parent?, h.node ht]; rfl

theorem child_iff (ht : t.Linked) : (t.regraft p slots list outs ins).Child c m ↔
    if m = p then c ∈ ins ∨ c ∈ kept else t.Child c m := by
  by_cases hm : m = p
  · rw [if_pos hm, hm, Child, h.children_self ht, h.after.mem_iff, List.mem_append]
  · rw [if_neg hm, Child, h.children_of_ne ht hm, Child]

theorem kept_disjoint (ht : t.Linked) (hc : c ∈ kept) : c ∉ ins ∧ c ∉ outs := by
  have hp := ht.named (h.mem_children.mpr (.inr hc)) h.alive
  refine ⟨h.not_ins_of_parent hp, ?_⟩
  intro ho
  have hn := (h.before.nodup_iff.mp (ht.nodup p))
  exact (List.nodup_append.mp hn).2.2 c ho c hc rfl

private theorem accessible (ht : t.Linked) (hm : ¬ t.Within p m) :
    Acc (t.regraft p slots list outs ins).Child m := by
  induction m using ht.acyclic.induction with
  | _ m ih =>
    refine ⟨m, ?_⟩
    intro c hc
    have hp : m ≠ p := fun he => hm (he ▸ .refl)
    rw [h.child_iff ht, if_neg hp] at hc
    exact ih c hc fun hw => hm (hw.tail hc)

/-- The nodes taken in are not above the node, so nothing comes to be below itself. -/
theorem acyclic (ht : t.Linked) : WellFounded (t.regraft p slots list outs ins).Child := by
  refine ⟨?_⟩
  intro m
  induction m using ht.acyclic.induction with
  | _ m ih =>
    refine ⟨m, ?_⟩
    intro c hc
    rw [h.child_iff ht] at hc
    split at hc
    next hm =>
      rcases hc with hc | hc
      · exact h.accessible ht (h.outside c hc)
      · exact ih c (hm ▸ h.mem_children.mpr (.inr hc))
    next => exact ih c hc

theorem linked (ht : t.Linked) : (t.regraft p slots list outs ins).Linked where
  root {r} hr := by
    rw [root_regraft] at hr
    obtain ⟨ha, hp⟩ := ht.root hr
    rw [h.isAlive ht, h.parent? ht, if_neg, hp, ite_self]
    · exact ⟨ha, rfl⟩
    · exact fun hc => (isDetached_iff.mp (h.detached r hc)).2.2 hr
  child {c m} hc := by
    rw [h.child_iff ht] at hc
    rw [size_regraft, h.isAlive ht, h.isAlive ht]
    split at hc
    next hm =>
      subst hm
      rcases hc with hc | hc
      · have ha := h.ins_alive hc
        exact ⟨lt_of_alive ha, ha.trans h.alive.symm⟩
      · exact ht.child (h.mem_children.mpr (.inr hc))
    next => exact ht.child hc
  named {c m} hc hm := by
    rw [h.isAlive ht] at hm
    rw [h.child_iff ht] at hc
    rw [h.parent? ht]
    split at hc
    next he =>
      subst he
      by_cases hi : c ∈ ins
      · rw [if_pos hi]
      · have hk := hc.resolve_left hi
        rw [if_neg hi, if_neg (h.kept_disjoint ht hk).2]
        exact ht.named (h.mem_children.mpr (.inr hk)) hm
    next he =>
      have hp := ht.named hc hm
      rw [if_neg (h.not_ins_of_parent hp), if_neg, hp]
      intro ho
      have ha : t.isAlive c = true := by rw [(ht.child hc).2, hm]
      exact he (ht.child_unique hc (h.out_child ho) ha)
  held {c m} hc := by
    rw [h.parent? ht] at hc
    rw [h.child_iff ht, h.isAlive ht]
    split at hc
    next hi =>
      cases hc
      rw [if_pos rfl]
      exact ⟨.inl hi, h.ins_alive hi⟩
    next hi =>
      split at hc
      next => cases hc
      next ho =>
        obtain ⟨hcm, ha⟩ := ht.held hc
        refine ⟨?_, ha⟩
        split
        next he => exact .inr ((h.mem_children.mp (he ▸ hcm)).resolve_left ho)
        next => exact hcm
  nodup m := by
    by_cases hm : m = p
    · rw [hm, h.children_self ht, h.after.nodup_iff, List.nodup_append]
      have hn := List.nodup_append.mp (h.before.nodup_iff.mp (ht.nodup p))
      exact ⟨h.nodup, hn.2.1, fun a ha b hb he => (h.kept_disjoint ht hb).1 (he ▸ ha)⟩
    · rw [h.children_of_ne ht hm]
      exact ht.nodup m
  acyclic := h.acyclic ht

end Graft

/-- Nothing attached is below a detached node. -/
theorem Linked.not_within_detached (ht : t.Linked) (hp : t.isAttached p = true)
    (hn : t.isDetached n = true) : ¬ t.Within p n := by
  intro hw
  have hm := ht.not_attached_of_detached hn
  obtain ⟨ha, hpn, hr⟩ := isDetached_iff.mp hn
  obtain ⟨r, hroot, hpr⟩ := ht.isAttached_iff.mp hp
  rcases ht.within_total (attached_alive hp) hw hpr with h | h
  · rw [ht.isAttached_iff.mpr ⟨r, hroot, h⟩] at hm
    cases hm
  · rcases Relation.ReflTransGen.cases_head h with rfl | ⟨c, hc, -⟩
    · exact hr hroot
    · have := ht.parent_iff.mpr ⟨hc, (ht.root hroot).1⟩
      rw [(ht.root hroot).2] at this
      cases this

end TreeTidy.SyntaxTree
