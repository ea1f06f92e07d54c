import TreeTidy.Proofs.Tree.Linked
import TreeTidy.Proofs.Tree.Places
/-!
Walks up and down a linked tree: the nodes above a node, the nodes below it and its document. What
bounds the walks is the depth, which is never more than the number of nodes.
-/
namespace TreeTidy.SyntaxTree

variable {t : SyntaxTree} {a c m n p r : NodeId} {f g : Nat}

@[simp] theorem above_none : t.above f none = [] := by cases f <;> rfl

theorem isDetached_iff :
    t.isDetached n = true ↔ t.isAlive n = true ∧ t.parent? n = none ∧ t.root ≠ some n := by
  simp [isDetached, and_assoc]

theorem attached_alive (h : t.isAttached n = true) : t.isAlive n = true := by
  rw [isAttached, Bool.and_eq_true] at h
  exact h.1

namespace Linked

section Above

private theorem above_stable (ht : t.Linked) {o : Option NodeId}
    (hf : ∀ p, o = some p → t.isAlive p = true ∧ t.size ≤ f + depth t p)
    (hg : ∀ p, o = some p → t.size ≤ g + depth t p) : t.above f o = t.above g o := by
  induction f generalizing g o with
  | zero =>
    cases o with
    | none => simp
    | some p =>
      obtain ⟨hp, hs⟩ := hf p rfl
      have := ht.depth_lt_size (lt_of_alive hp)
      omega
  | succ f ih =>
    cases o with
    | none => simp
    | some p =>
      obtain ⟨hp, hs⟩ := hf p rfl
      have hlt := ht.depth_lt_size (lt_of_alive hp)
      have hgp := hg p rfl
      obtain ⟨g, rfl⟩ : ∃ k, g = k + 1 := ⟨g - 1, by omega⟩
      simp only [above, List.cons.injEq, true_and]
      refine ih ?_ ?_
      · intro q hq
        have hd := ht.depth_lt_of_child (ht.held hq).1
        exact ⟨ht.parent_alive hq, by omega⟩
      · intro q hq
        have hd := ht.depth_lt_of_child (ht.held hq).1
        omega

/-- Any fuel that is not less than the number of nodes gives all nodes above. -/
theorem above_eq_ancestors (ht : t.Linked) (hf : t.size ≤ f) :
    t.above f (t.parent? n) = t.ancestors n :=
  ht.above_stable (fun _ hp => ⟨ht.parent_alive hp, by omega⟩) fun _ _ => by omega

theorem ancestors_of_root (h : t.parent? n = none) : t.ancestors n = [] := by
  rw [ancestors, h, above_none]

theorem ancestors_of_parent (ht : t.Linked) (h : t.parent? n = some p) :
    t.ancestors n = p :: t.ancestors p := by
  rw [← ht.above_eq_ancestors (Nat.le_succ _), h, above, ancestors]

private theorem below_of_mem_above (ht : t.Linked) (h : a ∈ t.above f (t.parent? n)) :
    t.isAlive n = true ∧ t.Below n a := by
  induction f generalizing n with
  | zero => simp [above] at h
  | succ f ih =>
    cases hp : t.parent? n with
    | none => simp [hp] at h
    | some p =>
      obtain ⟨hc, hn⟩ := ht.held hp
      rw [hp, above, List.mem_cons] at h
      rcases h with rfl | h
      · exact ⟨hn, .single hc⟩
      · exact ⟨hn, (ih h).2.head hc⟩

/-- The nodes above a node are those that it is below of; a dead node has none. -/
theorem mem_ancestors (ht : t.Linked) : a ∈ t.ancestors n ↔ t.isAlive n = true ∧ t.Below n a := by
  refine ⟨ht.below_of_mem_above, ?_⟩
  rintro ⟨hn, h⟩
  induction h using Relation.TransGen.head_induction_on with
  | @single m hc =>
    rw [ht.ancestors_of_parent (ht.parent_iff.mpr ⟨hc, hn⟩)]
    exact .head _
  | @head m c hc _ ih =>
    rw [ht.ancestors_of_parent (ht.parent_iff.mpr ⟨hc, hn⟩)]
    exact .tail _ (ih ((ht.child hc).2 ▸ hn))

theorem isAncestor_iff (ht : t.Linked) :
    t.isAncestor a n = true ↔ t.isAlive n = true ∧ t.Below n a := by
  rw [isAncestor, List.contains_iff_mem, ht.mem_ancestors]

theorem isAttached_iff (ht : t.Linked) :
    t.isAttached n = true ↔ ∃ r, t.root = some r ∧ t.Within n r := by
  rw [isAttached, Bool.and_eq_true, List.any_eq_true]
  constructor
  · rintro ⟨hn, m, hm, hr⟩
    refine ⟨m, by simpa using hr, within_iff.mpr ?_⟩
    rcases List.mem_cons.mp hm with rfl | hm
    · exact .inl rfl
    · exact .inr (ht.mem_ancestors.mp hm).2
  · rintro ⟨r, hr, hn⟩
    have ha : t.isAlive n = true := by rw [hn.alive ht, (ht.root hr).1]
    refine ⟨ha, r, List.mem_cons.mpr ?_, by simp [hr]⟩
    rcases within_iff.mp hn with rfl | hb
    · exact .inl rfl
    · exact .inr (ht.mem_ancestors.mpr ⟨ha, hb⟩)

end Above

theorem attached_root (ht : t.Linked) (h : t.root = some r) : t.isAttached r = true :=
  ht.isAttached_iff.mpr ⟨r, h, .refl⟩

theorem attached_of_within (ht : t.Linked) (h : t.isAttached n = true) (hm : t.Within m n) :
    t.isAttached m = true := by
  obtain ⟨r, hr, hn⟩ := ht.isAttached_iff.mp h
  exact ht.isAttached_iff.mpr ⟨r, hr, hm.trans hn⟩

theorem attached_child (ht : t.Linked) (h : t.isAttached p = true) (hc : t.Child c p) :
    t.isAttached c = true :=
  ht.attached_of_within h (.single hc)

/-- An attached node is the root, or in an attached node. -/
theorem attached_cases (ht : t.Linked) (h : t.isAttached n = true) :
    (t.root = some n ∧ t.parent? n = none) ∨
      ∃ p, t.parent? n = some p ∧ t.Child n p ∧ t.isAttached p = true := by
  obtain ⟨r, hr, hn⟩ := ht.isAttached_iff.mp h
  rcases Relation.ReflTransGen.cases_head hn with rfl | ⟨p, hp, hpr⟩
  · exact .inl ⟨hr, (ht.root hr).2⟩
  · have hpn := ht.parent_iff.mpr ⟨hp, attached_alive h⟩
    exact .inr ⟨p, hpn, hp, ht.isAttached_iff.mpr ⟨r, hr, hpr⟩⟩

theorem attached_parent (ht : t.Linked) (h : t.isAttached n = true) (hp : t.parent? n = some p) :
    t.isAttached p = true := by
  rcases ht.attached_cases h with ⟨-, hn⟩ | ⟨q, hq, -, ha⟩
  · rw [hn] at hp
    cases hp
  · rw [hp] at hq
    cases hq
    exact ha

/-- No node is both detached and attached. -/
theorem not_attached_of_detached (ht : t.Linked) (h : t.isDetached n = true) :
    t.isAttached n = false := by
  obtain ⟨-, hp, hr⟩ := isDetached_iff.mp h
  by_contra hn
  rcases ht.attached_cases (by simpa using hn) with ⟨hr', -⟩ | ⟨p, hp', -⟩
  · exact hr hr'
  · rw [hp] at hp'
    cases hp'

section Walks

theorem descendantsWithin_stable (ht : t.Linked) (hf : depth t n < f) (hg : depth t n < g) :
    t.descendantsWithin f n = t.descendantsWithin g n := by
  induction f generalizing g n with
  | zero => omega
  | succ f ih =>
    obtain ⟨g, rfl⟩ : ∃ k, g = k + 1 := ⟨g - 1, by omega⟩
    simp only [descendantsWithin, List.cons.injEq, true_and]
    apply List.flatMap_congr
    intro c hc
    have hd := ht.depth_lt_of_child hc
    exact ih (by omega) (by omega)

/-- A node and all below it: the node, then what its children and all below them give. -/
theorem descendants_eq (ht : t.Linked) (n : NodeId) :
    t.descendants n = n :: (t.children n).flatMap t.descendants := by
  rw [descendants, descendantsWithin]
  congr 1
  apply List.flatMap_congr
  intro c hc
  have hd := ht.depth_lt_of_child hc
  have hs := depth_le_size t n
  exact ht.descendantsWithin_stable (by omega) (by omega)

theorem mem_descendants (ht : t.Linked) : m ∈ t.descendants n ↔ t.Within m n := by
  induction n using ht.acyclic.induction with
  | _ n ih =>
    rw [ht.descendants_eq, List.mem_cons, List.mem_flatMap, within_iff_child]
    refine or_congr_right (exists_congr fun c => and_congr_right ?_)
    intro hc
    exact ih c hc

theorem docWithin_stable (ht : t.Linked) (hf : depth t n < f) (hg : depth t n < g) :
    t.docWithin f n = t.docWithin g n := by
  induction f generalizing g n with
  | zero => omega
  | succ f ih =>
    obtain ⟨g, rfl⟩ : ∃ k, g = k + 1 := ⟨g - 1, by omega⟩
    have hc : ∀ c ∈ t.children n, t.docWithin f c = t.docWithin g c := by
      intro c hc
      have hd := ht.depth_lt_of_child hc
      exact ih (by omega) (by omega)
    simp only [children, Node.mem_children] at hc
    simp only [docWithin, Doc.node.injEq, true_and]
    refine ⟨List.map_congr_left ?_, List.map_congr_left fun c hl => hc c (.inr hl)⟩
    intro o ho
    cases o with
    | none => rfl
    | some c => exact congrArg some (hc c (.inl ho))

/-- The document of a node: its own data, with the documents of its children. -/
theorem doc_eq (ht : t.Linked) (n : NodeId) :
    t.doc n = .node (t.kind n) (t.span n) (t.node n).ty
      ((t.node n).slots.map (Option.map t.doc)) ((t.node n).list.map t.doc) := by
  have hc : ∀ c ∈ t.children n, t.docWithin t.size c = t.doc c := by
    intro c hc
    have hd := ht.depth_lt_of_child hc
    have hs := depth_le_size t n
    exact ht.docWithin_stable (by omega) (by omega)
  simp only [children, Node.mem_children] at hc
  conv_lhs => rw [doc, docWithin]
  simp only [Doc.node.injEq]
  refine ⟨rfl, rfl, trivial, List.map_congr_left ?_,
    List.map_congr_left fun c hl => hc c (.inr hl)⟩
  intro o ho
  cases o with
  | none => rfl
  | some c => exact congrArg some (hc c (.inl ho))

end Walks

end Linked

section Congr

variable {u : SyntaxTree}

theorem docWithin_congr (h : ∀ m, t.Within m n → (u.node m).data = (t.node m).data) (f : Nat) :
    u.docWithin f n = t.docWithin f n := by
  induction f generalizing n with
  | zero =>
    have hn := h n .refl
    simp only [Node.data, Prod.mk.injEq] at hn
    simp only [docWithin, kind, span, hn]
  | succ f ih =>
    have hc : ∀ c ∈ t.children n, u.docWithin f c = t.docWithin f c := by
      intro c hc
      exact ih fun m hm => h m (hm.tail hc)
    have hn := h n .refl
    simp only [Node.data, Prod.mk.injEq] at hn
    simp only [children, Node.mem_children] at hc
    simp only [docWithin, hn, Doc.node.injEq, true_and]
    refine ⟨List.map_congr_left ?_, List.map_congr_left fun c hl => hc c (.inr hl)⟩
    intro o ho
    cases o with
    | none => rfl
    | some c => exact congrArg some (hc c (.inl ho))

/-- A node whose data and the data below it stay has the same document afterwards. -/
theorem Linked.doc_congr (ht : t.Linked) (hs : t.size ≤ u.size)
    (h : ∀ m, t.Within m n → (u.node m).data = (t.node m).data) : u.doc n = t.doc n := by
  have hd := depth_le_size t n
  rw [doc, docWithin_congr h, doc]
  exact ht.docWithin_stable (by omega) (by omega)

end Congr

end TreeTidy.SyntaxTree
