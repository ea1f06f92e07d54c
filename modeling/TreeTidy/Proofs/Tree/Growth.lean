import TreeTidy.Proofs.Tree.Regraft
import TreeTidy.Tree.Create
/-!
Making nodes. Nodes that exist stay as they are, but for detached ones that get a parent; so a tree
grows without what is attached to it being touched.
-/
namespace TreeTidy.SyntaxTree

variable {t u v : SyntaxTree} {c m n p : NodeId}

/-- The later tree has all nodes of the first as they were, but that detached ones may have got a
parent. -/
structure Grown (t u : SyntaxTree) : Prop where
  size : t.size ≤ u.size
  root : u.root = t.root
  id : u.id = t.id
  revision : u.revision = t.revision
  node : ∀ {m}, m < t.size → u.node m = { t.node m with parent := u.parent? m }
  parent : ∀ {m}, m < t.size → t.isDetached m = false → u.parent? m = t.parent? m

/-- The later tree has all nodes of the first as they were. -/
structure Extends (t u : SyntaxTree) : Prop where
  size : t.size ≤ u.size
  root : u.root = t.root
  id : u.id = t.id
  revision : u.revision = t.revision
  node : ∀ {m}, m < t.size → u.node m = t.node m

namespace Extends

theorem refl (t : SyntaxTree) : t.Extends t := ⟨le_refl _, rfl, rfl, rfl, fun _ => rfl⟩

theorem trans (h : t.Extends u) (h' : u.Extends v) : t.Extends v where
  size := h.size.trans h'.size
  root := h'.root.trans h.root
  id := h'.id.trans h.id
  revision := h'.revision.trans h.revision
  node hm := (h'.node (lt_of_lt_of_le hm h.size)).trans (h.node hm)

theorem grown (h : t.Extends u) : t.Grown u where
  size := h.size
  root := h.root
  id := h.id
  revision := h.revision
  node hm := by rw [parent?, h.node hm]
  parent hm _ := by rw [parent?, h.node hm, parent?]

theorem isDetached (h : t.Extends u) (hm : m < t.size) : u.isDetached m = t.isDetached m := by
  simp only [SyntaxTree.isDetached, isAlive, parent?, h.node hm, h.root]

end Extends

namespace Grown

theorem refl (t : SyntaxTree) : t.Grown t := (Extends.refl t).grown

theorem isAlive (h : t.Grown u) (hm : m < t.size) : u.isAlive m = t.isAlive m := by
  rw [SyntaxTree.isAlive, h.node hm, SyntaxTree.isAlive]

theorem children (h : t.Grown u) (hm : m < t.size) : u.children m = t.children m := by
  rw [SyntaxTree.children, h.node hm]
  rfl

theorem data (h : t.Grown u) (hm : m < t.size) : (u.node m).data = (t.node m).data := by
  rw [h.node hm]
  rfl

theorem isDetached_of_later (h : t.Grown u) (hm : m < t.size) (hu : u.isDetached m = true) :
    t.isDetached m = true := by
  obtain ⟨ha, hp, hr⟩ := isDetached_iff.mp hu
  rw [h.isAlive hm] at ha
  rw [h.root] at hr
  cases ht : t.isDetached m with
  | true => rfl
  | false =>
    rw [h.parent hm ht] at hp
    rw [← ht, isDetached_iff.mpr ⟨ha, hp, hr⟩]

theorem trans (h : t.Grown u) (h' : u.Grown v) : t.Grown v where
  size := h.size.trans h'.size
  root := h'.root.trans h.root
  id := h'.id.trans h.id
  revision := h'.revision.trans h.revision
  node hm := by rw [h'.node (lt_of_lt_of_le hm h.size), h.node hm]
  parent {m} hm hd := by
    rw [h'.parent (lt_of_lt_of_le hm h.size), h.parent hm hd]
    cases hu : u.isDetached m with
    | false => rfl
    | true => rw [← hd, h.isDetached_of_later hm hu]

/-- What a node holds and what is below it does not change by making others. -/
theorem doc (h : t.Grown u) (ht : t.Linked) (hn : n < t.size) : u.doc n = t.doc n := by
  refine ht.doc_congr h.size fun m hm => h.data ?_
  rcases within_iff.mp hm with rfl | hb
  · exact hn
  · exact hb.lt_size ht

theorem node_of_attached (h : t.Grown u) (ht : t.Linked) (hm : t.isAttached m = true) :
    u.node m = t.node m := by
  have hlt := lt_of_alive (attached_alive hm)
  have hd : t.isDetached m = false := by
    cases hd : t.isDetached m with
    | false => rfl
    | true => rw [← hm, ht.not_attached_of_detached hd]
  rw [h.node hlt, h.parent hlt hd, parent?]

theorem child_iff (h : t.Grown u) (hp : p < t.size) : u.Child c p ↔ t.Child c p := by
  rw [Child, h.children hp, Child]

theorem within_iff (h : t.Grown u) (ht : t.Linked) (hn : n < t.size) :
    u.Within m n ↔ t.Within m n := by
  induction n using ht.acyclic.induction with
  | _ n ih =>
    rw [within_iff_child, within_iff_child]
    refine or_congr_right (exists_congr ?_)
    intro c
    rw [h.child_iff hn]
    exact and_congr_right fun hc => ih c hc (ht.child hc).1

theorem attached_iff (h : t.Grown u) (ht : t.Linked) (hu : u.Linked) :
    u.isAttached m = true ↔ t.isAttached m = true := by
  rw [hu.isAttached_iff, ht.isAttached_iff, h.root]
  refine exists_congr fun r => and_congr_right ?_
  intro hr
  exact h.within_iff ht (lt_of_alive (ht.root hr).1)

end Grown

end TreeTidy.SyntaxTree
