import TreeTidy.Proofs.Tree.Reach
/-!
The order of a tree: a node comes before all that is below it, and what is in or below a child comes before
what is in or below a later child. Of two different attached nodes, one comes before the other, and then the
other does not come before it.
-/
namespace TreeTidy.SyntaxTree

variable {t : SyntaxTree} {a b c d m n p q r x y : NodeId}

/-- The nodes are in or below different children of one node, in the order of these children. -/
def LeftOf (t : SyntaxTree) (a b : NodeId) : Prop :=
  ∃ p x y, [x, y].Sublist (t.children p) ∧ t.Within a x ∧ t.Within b y

/-- The order in which nodes are met that come before their children. -/
def Before (t : SyntaxTree) (a b : NodeId) : Prop := t.Below b a ∨ t.LeftOf a b

theorem LeftOf.within (h : t.LeftOf a b) (hc : t.Within c a) (hd : t.Within d b) : t.LeftOf c d := by
  obtain ⟨p, x, y, hxy, ha, hb⟩ := h
  exact ⟨p, x, y, hxy, hc.trans ha, hd.trans hb⟩

theorem LeftOf.of_children (h : [x, y].Sublist (t.children p)) : t.LeftOf x y :=
  ⟨p, x, y, h, .refl, .refl⟩

theorem pairwise_children (t : SyntaxTree) (p : NodeId) : (t.children p).Pairwise t.LeftOf :=
  List.pairwise_iff_forall_sublist.mpr .of_children

/-- What comes before a node comes before all below it. -/
theorem Before.below (h : t.Before a b) (hc : t.Below c b) : t.Before a c :=
  h.imp hc.trans fun hl => hl.within .refl hc.to_reflTransGen

/-- Of two members of a list, one stands before the other. -/
theorem pair_sublist {as : List NodeId} (hx : x ∈ as) (hy : y ∈ as) (hne : x ≠ y) :
    [x, y].Sublist as ∨ [y, x].Sublist as := by
  obtain ⟨front, back, rfl⟩ := List.append_of_mem hx
  obtain hy | hy := List.mem_append.mp hy
  · exact .inr (.append (List.singleton_sublist.mpr hy) (List.singleton_sublist.mpr (.head _)))
  · have hy := (List.mem_cons.mp hy).resolve_left hne.symm
    exact .inl ((List.cons_sublist_cons.mpr (List.singleton_sublist.mpr hy)).trans
      (List.sublist_append_right front _))

theorem ne_of_pair_sublist {as : List NodeId} (hn : as.Nodup) (h : [x, y].Sublist as) : x ≠ y := by
  rintro rfl
  exact (List.nodup_cons.mp (hn.sublist h)).1 (.head _)

/-- Of two members of a list without repetition, one only stands before the other. -/
theorem not_pair_sublist {as : List NodeId} (hn : as.Nodup) (h : [x, y].Sublist as) :
    ¬ [y, x].Sublist as := by
  intro h'
  have hne := ne_of_pair_sublist hn h
  induction as with
  | nil => cases h
  | cons c cs ih =>
    obtain ⟨hc, hcs⟩ := List.nodup_cons.mp hn
    cases h with
    | cons _ h =>
      cases h' with
      | cons _ h' => exact ih hcs h h'
      | cons_cons _ h' => exact hc (h.subset (.tail _ (.head _)))
    | cons_cons _ h =>
      cases h' with
      | cons _ h' => exact hc (h'.subset (.tail _ (.head _)))
      | cons_cons _ h' => exact hne rfl

namespace Linked

/-- Two nodes in one node: one is in the other, or they are in different children of a node. -/
theorem order_total (ht : t.Linked) (ha : t.Within a r) (hb : t.Within b r) :
    a = b ∨ t.Before a b ∨ t.Before b a := by
  induction r using ht.acyclic.induction with
  | _ r ih =>
    obtain rfl | ⟨x, hx, hax⟩ := within_iff_child.mp ha
    · exact (within_iff.mp hb).imp Eq.symm fun h => .inl (.inl h)
    obtain rfl | ⟨y, hy, hby⟩ := within_iff_child.mp hb
    · exact .inr (.inr (.inl (hax.below hx)))
    by_cases hxy : x = y
    · subst hxy
      exact ih x hx hax hby
    · obtain h | h := pair_sublist hx hy hxy
      · exact .inr (.inl (.inr ⟨r, x, y, h, hax, hby⟩))
      · exact .inr (.inr (.inr ⟨r, y, x, h, hby, hax⟩))

theorem order_attached (ht : t.Linked) (ha : t.isAttached a = true) (hb : t.isAttached b = true) :
    a = b ∨ t.Before a b ∨ t.Before b a := by
  obtain ⟨r, hr, har⟩ := ht.isAttached_iff.mp ha
  obtain ⟨r', hr', hbr⟩ := ht.isAttached_iff.mp hb
  obtain rfl := Option.some.inj (hr.symm.trans hr')
  exact ht.order_total har hbr

variable (ht : t.Linked)
include ht

theorem child_within_unique (hn : t.isAlive n = true) (hx : t.Child x p) (hy : t.Child y p)
    (hnx : t.Within n x) (hny : t.Within n y) : x = y := by
  by_contra hne
  have hp : t.isAlive p = true := by rw [← (ht.child hx).2, ← hnx.alive ht, hn]
  exact ht.disjoint_children hp hx hy hne ⟨hnx, hny⟩

/-- It does not matter which children the nodes are found in: they are in the order of the nodes. -/
theorem children_leftOf (ha : t.isAlive a = true) (h : t.LeftOf a b) (hx : t.Child x q) (hy : t.Child y q)
    (hne : x ≠ y) (hax : t.Within a x) (hby : t.Within b y) : [x, y].Sublist (t.children q) := by
  obtain ⟨p, x', y', hxy, hax', hby'⟩ := h
  have hx' : t.Child x' p := hxy.subset (.head _)
  have hy' : t.Child y' p := hxy.subset (.tail _ (.head _))
  have hb : t.isAlive b = true := by
    rw [hby'.alive ht, (ht.child hy').2, ← (ht.child hx').2, ← hax'.alive ht, ha]
  have hne' : x' ≠ y' := ne_of_pair_sublist (ht.nodup p) hxy
  -- both are below both of the parents, of which one is in the other
  obtain hpq | hqp := ht.within_total ha (hax'.tail hx') (hax.tail hx)
  · obtain rfl | ⟨k, hk, hpk⟩ := within_iff_child.mp hpq
    · obtain rfl := ht.child_within_unique ha hx' hx hax' hax
      obtain rfl := ht.child_within_unique hb hy' hy hby' hby
      exact hxy
    · have hkx := ht.child_within_unique ha hk hx ((hax'.tail hx').trans hpk) hax
      have hky := ht.child_within_unique hb hk hy ((hby'.tail hy').trans hpk) hby
      exact absurd (hkx.symm.trans hky) hne
  · obtain rfl | ⟨k, hk, hqk⟩ := within_iff_child.mp hqp
    · obtain rfl := ht.child_within_unique ha hx' hx hax' hax
      obtain rfl := ht.child_within_unique hb hy' hy hby' hby
      exact hxy
    · have hkx := ht.child_within_unique ha hk hx' ((hax.tail hx).trans hqk) hax'
      have hky := ht.child_within_unique hb hk hy' ((hby.tail hy).trans hqk) hby'
      exact absurd (hkx.symm.trans hky) hne'

/-- Of two nodes that are in different children of a node, neither is in the other. -/
theorem not_within_of_leftOf (ha : t.isAlive a = true) (h : t.LeftOf a b) (hc : t.Within c a) :
    ¬ t.Within c b := by
  intro hcb
  obtain ⟨p, x, y, hxy, hax, hby⟩ := h
  have hx : t.Child x p := hxy.subset (.head _)
  have hy : t.Child y p := hxy.subset (.tail _ (.head _))
  have hca : t.isAlive c = true := (hc.alive ht).trans ha
  obtain rfl := ht.child_within_unique hca hx hy (hc.trans hax) (hcb.trans hby)
  exact ne_of_pair_sublist (ht.nodup p) hxy rfl

theorem order_asymm (ha : t.isAlive a = true) (h : t.Before a b) : ¬ t.Before b a := by
  intro h'
  have hb : t.isAlive b = true := by
    obtain h | ⟨p, x, y, hxy, hax, hby⟩ := h
    · rw [Within.alive ht h.to_reflTransGen, ha]
    · have hx := ht.child (hxy.subset (.head _) : t.Child x p)
      have hy := ht.child (hxy.subset (.tail _ (.head _)) : t.Child y p)
      rw [hby.alive ht, hy.2, ← hx.2, ← hax.alive ht, ha]
  obtain h | h := h
  · obtain h' | h' := h'
    · exact ht.below_irrefl a (h'.trans h)
    · exact ht.not_within_of_leftOf hb h' .refl h.to_reflTransGen
  · obtain h' | h' := h'
    · exact ht.not_within_of_leftOf ha h .refl h'.to_reflTransGen
    · obtain ⟨p, x, y, hxy, hbx, hay⟩ := h'
      have hne := ne_of_pair_sublist (ht.nodup p) hxy
      have hyx := ht.children_leftOf ha h (hxy.subset (.tail _ (.head _))) (hxy.subset (.head _)) hne.symm
        hay hbx
      exact not_pair_sublist (ht.nodup p) hxy hyx

theorem order_irrefl (ha : t.isAlive a = true) : ¬ t.Before a a := fun h => ht.order_asymm ha h h

end Linked

end TreeTidy.SyntaxTree
