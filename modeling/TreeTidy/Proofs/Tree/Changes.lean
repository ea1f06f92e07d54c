import TreeTidy.Proofs.Tree.Reach
import TreeTidy.Proofs.Tree.Unlink
/-!
The edits, taken apart: nodes are taken from their parents, one node exchanges children, and what was
given up is destroyed. Each edit keeps the links right because each of its parts does.

What is below nodes that are destroyed dies with them, and nothing else changes; where nothing holds the
nodes, the links stay right.
-/
namespace TreeTidy.SyntaxTree

section Destroy

variable {t u : SyntaxTree} {c m n p : NodeId} {ns : List NodeId}

theorem descendantsWithin_congr (hc : ∀ m, u.children m = t.children m) (f : Nat) (n : NodeId) :
    u.descendantsWithin f n = t.descendantsWithin f n := by
  induction f generalizing n with
  | zero => rfl
  | succ f ih =>
    simp only [descendantsWithin, hc, List.cons.injEq, true_and]
    exact List.flatMap_congr fun c _ => ih c

theorem descendants_congr (hs : u.size = t.size) (hc : ∀ m, u.children m = t.children m)
    (n : NodeId) : u.descendants n = t.descendants n := by
  rw [descendants, descendants, hs, descendantsWithin_congr hc]

@[simp] theorem size_destroy : (t.destroy n).size = t.size := (marks_foldl_update _ _).1

@[simp] theorem root_destroy : (t.destroy n).root = t.root := (marks_foldl_update _ _).2.1

@[simp] theorem id_destroy : (t.destroy n).id = t.id := (marks_foldl_update _ _).2.2.1

@[simp] theorem revision_destroy : (t.destroy n).revision = t.revision :=
  (marks_foldl_update _ _).2.2.2

theorem marks_foldl_destroy (ns : List NodeId) (t : SyntaxTree) :
    (ns.foldl destroy t).size = t.size ∧ (ns.foldl destroy t).root = t.root ∧
    (ns.foldl destroy t).id = t.id ∧ (ns.foldl destroy t).revision = t.revision := by
  induction ns generalizing t with
  | nil => simp
  | cons n ns ih => simpa using ih (t.destroy n)

/-- Below one of the nodes, or one of them. -/
def Under (t : SyntaxTree) (ns : List NodeId) (m : NodeId) : Prop := ∃ n ∈ ns, t.Within m n

theorem node_destroy (m : NodeId) : (t.destroy n).node m =
    if m ∈ t.descendants n then { t.node m with alive := false, parent := none }
    else t.node m := by
  rw [destroy, node_foldl_update]
  · by_cases hm : m < t.size
    · simp [hm]
    · rw [node_of_size_le (Nat.not_lt.mp hm), if_neg fun h => hm h.2]
      exact (ite_self _).symm
  · exact fun _ => rfl

theorem children_destroy (m : NodeId) : (t.destroy n).children m = t.children m := by
  rw [children, node_destroy]
  split <;> rfl

open Classical in
private theorem node_foldl_destroy_of_congr (ht : t.Linked) (hs : u.size = t.size)
    (hc : ∀ m, u.children m = t.children m) (m : NodeId) : (ns.foldl destroy u).node m =
      if t.Under ns m then { u.node m with alive := false, parent := none } else u.node m := by
  induction ns generalizing u with
  | nil => simp [Under]
  | cons n ns ih =>
    have hd : m ∈ u.descendants n ↔ t.Within m n := by
      rw [descendants_congr hs hc, ht.mem_descendants]
    rw [List.foldl_cons, ih (by simpa using hs) fun m => (children_destroy m).trans (hc m),
      node_destroy]
    by_cases hn : t.Within m n <;> by_cases hm : t.Under ns m <;>
      simp_all [Under]

open Classical in
/-- Everything below one of the nodes dies; all else stays as it is. -/
theorem node_foldl_destroy (ht : t.Linked) (ns : List NodeId) (m : NodeId) :
    (ns.foldl destroy t).node m =
      if t.Under ns m then { t.node m with alive := false, parent := none } else t.node m :=
  node_foldl_destroy_of_congr ht rfl (fun _ => rfl) m

/-- Trees that differ in the parents of destroyed nodes only are the same afterwards. -/
theorem foldl_destroy_congr (ht : t.Linked) (hs : u.size = t.size) (hr : u.root = t.root)
    (hi : u.id = t.id) (hv : u.revision = t.revision)
    (hin : ∀ m ∈ ns, u.node m = { t.node m with parent := u.parent? m })
    (hout : ∀ m, m ∉ ns → u.node m = t.node m) : ns.foldl destroy u = ns.foldl destroy t := by
  have hn : ∀ m, u.node m = { t.node m with parent := u.parent? m } := by
    intro m
    by_cases hm : m ∈ ns
    · exact hin m hm
    · rw [parent?, hout m hm]
  have hc : ∀ m, u.children m = t.children m := fun m => by rw [children, hn]; rfl
  refine eq_of_nodes ?_ ?_ ?_ ?_ ?_
  · rw [(marks_foldl_destroy _ _).1, (marks_foldl_destroy _ _).1, hs]
  · intro m
    rw [node_foldl_destroy_of_congr ht hs hc, node_foldl_destroy ht]
    split
    next => rw [hn]
    next hm =>
      refine hout m fun h => hm ⟨m, h, .refl⟩
  · rw [(marks_foldl_destroy _ _).2.1, (marks_foldl_destroy _ _).2.1, hr]
  · rw [(marks_foldl_destroy _ _).2.2.1, (marks_foldl_destroy _ _).2.2.1, hi]
  · rw [(marks_foldl_destroy _ _).2.2.2, (marks_foldl_destroy _ _).2.2.2, hv]

theorem children_foldl_destroy (m : NodeId) : (ns.foldl destroy t).children m = t.children m := by
  induction ns generalizing t with
  | nil => rfl
  | cons n ns ih => exact ih.trans (children_destroy m)

theorem child_foldl_destroy : (ns.foldl destroy t).Child c p ↔ t.Child c p := by
  rw [Child, children_foldl_destroy, Child]

section Linked

variable (ht : t.Linked)
include ht

/-- A child of a living node is below the nodes if and only if that node is. -/
private theorem under_child (hn : ∀ n ∈ ns, t.parent? n = none) (hc : t.Child c p)
    (hp : t.isAlive p = true) : t.Under ns c ↔ t.Under ns p := by
  refine exists_congr fun n => and_congr_right fun hm => ⟨?_, fun h => h.head hc⟩
  intro h
  rcases Relation.ReflTransGen.cases_head h with rfl | ⟨q, hq, hqn⟩
  · have := ht.named hc hp
    rw [hn c hm] at this
    cases this
  · exact ht.child_unique hq hc ((ht.child hc).2.trans hp) ▸ hqn

open Classical in
private theorem isAlive_foldl_destroy (m : NodeId) : (ns.foldl destroy t).isAlive m =
    if t.Under ns m then false else t.isAlive m := by
  rw [isAlive, node_foldl_destroy ht]
  split <;> rfl

open Classical in
private theorem parent_foldl_destroy (m : NodeId) : (ns.foldl destroy t).parent? m =
    if t.Under ns m then none else t.parent? m := by
  rw [parent?, node_foldl_destroy ht]
  split <;> rfl

theorem Linked.foldl_destroy (hn : ∀ n ∈ ns, t.parent? n = none ∧ t.root ≠ some n) :
    (ns.foldl destroy t).Linked where
  root {r} hr := by
    rw [(marks_foldl_destroy _ _).2.1] at hr
    obtain ⟨ha, hp⟩ := ht.root hr
    have hu : ¬ t.Under ns r := by
      rintro ⟨n, hm, hw⟩
      rcases Relation.ReflTransGen.cases_head hw with rfl | ⟨q, hq, -⟩
      · exact (hn r hm).2 hr
      · have := ht.parent_iff.mpr ⟨hq, ha⟩
        rw [hp] at this
        cases this
    rw [isAlive_foldl_destroy ht, parent_foldl_destroy ht, if_neg hu, if_neg hu]
    exact ⟨ha, hp⟩
  child {c p} hc := by
    rw [child_foldl_destroy] at hc
    rw [(marks_foldl_destroy _ _).1, isAlive_foldl_destroy ht, isAlive_foldl_destroy ht,
      (ht.child hc).2]
    refine ⟨(ht.child hc).1, ?_⟩
    cases hp : t.isAlive p with
    | false => rw [ite_self, ite_self]
    | true =>
      have hu := under_child ht (fun n h => (hn n h).1) hc hp
      by_cases h : t.Under ns p
      · rw [if_pos h, if_pos (hu.mpr h)]
      · rw [if_neg h, if_neg fun h' => h (hu.mp h')]
  named {c p} hc hp := by
    rw [child_foldl_destroy] at hc
    rw [isAlive_foldl_destroy ht] at hp
    split at hp
    next => cases hp
    next hu =>
      rw [parent_foldl_destroy ht, if_neg, ht.named hc hp]
      exact fun h => hu ((under_child ht (fun n h => (hn n h).1) hc hp).mp h)
  held {c p} hc := by
    rw [parent_foldl_destroy ht] at hc
    split at hc
    next => cases hc
    next hu =>
      rw [child_foldl_destroy, isAlive_foldl_destroy ht, if_neg hu]
      exact ht.held hc
  nodup p := by
    rw [children_foldl_destroy]
    exact ht.nodup p
  acyclic := by
    have h : (ns.foldl destroy t).Child = t.Child := by
      funext c p
      exact propext (child_foldl_destroy)
    rw [h]
    exact ht.acyclic

theorem Linked.destroy (hn : t.parent? n = none) (hr : t.root ≠ some n) : (t.destroy n).Linked := by
  have h : ([n].foldl SyntaxTree.destroy t).Linked := ht.foldl_destroy fun m hm => by
    rw [List.mem_singleton.mp hm]
    exact ⟨hn, hr⟩
  exact h

end Linked

end Destroy

variable {t u : SyntaxTree} {c m n p r : NodeId}

section Marks

/-- A change of what a node says of itself. -/
theorem Linked.congr (ht : t.Linked) (hs : u.size = t.size) (hr : u.root = t.root)
    (hc : ∀ m, u.children m = t.children m) (ha : ∀ m, u.isAlive m = t.isAlive m)
    (hp : ∀ m, u.parent? m = t.parent? m) : u.Linked := by
  have hch : u.Child = t.Child := by
    funext c p
    rw [Child, hc, Child]
  refine ⟨fun hx => ?_, fun hx => ?_, fun hx hy => ?_, fun hx => ?_, fun p => ?_, ?_⟩
  · rw [ha, hp]
    exact ht.root (hr ▸ hx)
  · rw [hs, ha, ha]
    exact ht.child (hch ▸ hx)
  · rw [hp]
    exact ht.named (hch ▸ hx) (ha _ ▸ hy)
  · rw [hch, ha]
    exact ht.held (hp _ ▸ hx)
  · rw [hc]
    exact ht.nodup p
  · rw [hch]
    exact ht.acyclic

theorem Linked.bump (ht : t.Linked) : t.bump.Linked :=
  ht.congr rfl rfl (fun _ => rfl) (fun _ => rfl) fun _ => rfl

theorem Linked.update (ht : t.Linked) {f : Node → Node} (hc : ∀ d, (f d).children = d.children)
    (ha : ∀ d, (f d).alive = d.alive) (hp : ∀ d, (f d).parent = d.parent) (n : NodeId) :
    (t.update n f).Linked := by
  refine ht.congr size_update rfl ?_ ?_ ?_
  · intro m
    rw [children, node_update]
    split
    · exact hc _
    · rfl
  · intro m
    rw [isAlive, node_update]
    split
    · exact ha _
    · rfl
  · intro m
    rw [parent?, node_update]
    split
    · exact hp _
    · rfl

theorem Linked.setType (ht : t.Linked) (n : NodeId) (ty : Option TypeDesc) :
    (t.setType n ty).Linked := by
  refine (ht.update ?_ ?_ ?_ n).bump <;> exact fun _ => rfl

theorem node_setType (n : NodeId) (ty : Option TypeDesc) (m : NodeId) : (t.setType n ty).node m =
    { t.node m with ty := if m = n ∧ m < t.size then ty else (t.node m).ty } := by
  rw [SyntaxTree.setType, node_bump, node_update]
  split <;> rfl

/-- The tree with another root. -/
def withRoot (t : SyntaxTree) (n : NodeId) : SyntaxTree := { t with root := some n }

@[simp] theorem size_withRoot : (t.withRoot n).size = t.size := rfl

@[simp] theorem node_withRoot : (t.withRoot n).node m = t.node m := rfl

@[simp] theorem root_withRoot : (t.withRoot n).root = some n := rfl

@[simp] theorem id_withRoot : (t.withRoot n).id = t.id := rfl

@[simp] theorem revision_withRoot : (t.withRoot n).revision = t.revision := rfl

theorem Linked.withRoot (ht : t.Linked) (h : t.isDetached n = true) : (t.withRoot n).Linked where
  root {r} hr := by
    cases hr
    obtain ⟨ha, hp, -⟩ := isDetached_iff.mp h
    exact ⟨ha, hp⟩
  child := ht.child
  named := ht.named
  held := ht.held
  nodup := ht.nodup
  acyclic := ht.acyclic

theorem destroy_withRoot : (t.withRoot n).destroy m = (t.destroy m).withRoot n := by
  refine eq_of_nodes (by simp) ?_ (by simp) (by simp) (by simp)
  intro a
  have hd : (t.withRoot n).descendants m = t.descendants m :=
    descendants_congr size_withRoot (fun _ => by rw [children, node_withRoot, children]) m
  rw [node_destroy, hd, node_withRoot, node_withRoot, node_destroy]

theorem Linked.retire (ht : t.Linked) (hp : t.parent? n = none) (hr : t.root ≠ some n)
    (s : Option NodeId) : (t.retire n s).Linked := by
  refine (ht.destroy hp hr).update ?_ ?_ ?_ n <;> exact fun _ => rfl

theorem Linked.setRoot? (ht : t.Linked) (h : t.setRoot? n = .ok u) : u.Linked := by
  unfold SyntaxTree.setRoot? at h
  split at h
  · cases h
  next hd =>
    have hd : t.isDetached n = true := by simpa using hd
    cases hr : t.root with
    | none =>
      rw [hr] at h
      cases h
      exact (ht.withRoot hd).bump
    | some r =>
      rw [hr] at h
      cases h
      have hne : some n ≠ some r := fun he => (isDetached_iff.mp hd).2.2 (hr.trans he.symm)
      have hl := (ht.withRoot hd).destroy (n := r) (ht.root hr).2 hne
      rw [destroy_withRoot] at hl
      exact hl.bump

end Marks

section Reuse

/-- A node can take the place of another one: it is detached, or below it. -/
def Reusable (t : SyntaxTree) (olds : List NodeId) (n : NodeId) : Prop :=
  t.isDetached n = true ∨ ∃ r ∈ olds, t.isAlive n = true ∧ t.Below n r

theorem Reusable.alive {olds : List NodeId} (h : t.Reusable olds n) : t.isAlive n = true := by
  rcases h with h | ⟨_, _, h, -⟩
  · exact (isDetached_iff.mp h).1
  · exact h

variable (ht : t.Linked)
include ht

/-- What is strictly below a child of a node is neither above that node nor one of its children. -/
theorem Linked.apart (hr : t.Child r p) (hn : t.Below n r) (ha : t.isAlive n = true) :
    ¬ t.Within p n ∧ t.parent? n ≠ some p := by
  refine ⟨fun hw => ht.below_irrefl p ((hn.tail hr).trans_right hw), ?_⟩
  intro hp
  obtain ⟨q, hq, hqr⟩ := Relation.TransGen.head'_iff.mp hn
  have he := ht.child_unique hq (ht.held hp).1 ha
  exact ht.below_irrefl p ((he ▸ hqr : t.Within p r).below hr)

theorem Linked.apart_of_detached (hp : t.isAttached p = true) (hn : t.isDetached n = true) :
    ¬ t.Within p n ∧ t.parent? n ≠ some p := by
  refine ⟨ht.not_within_detached hp hn, ?_⟩
  rw [(isDetached_iff.mp hn).2.1]
  simp

/-- A node below another one is not the root. -/
theorem Linked.not_root_of_below (hn : t.Below n r) : t.root ≠ some n := by
  intro hr
  obtain ⟨q, hq, -⟩ := Relation.TransGen.head'_iff.mp hn
  have := ht.parent_iff.mpr ⟨hq, (ht.root hr).1⟩
  rw [(ht.root hr).2] at this
  cases this

theorem Reusable.apart {olds : List NodeId} (h : t.Reusable olds n) (hp : t.isAttached p = true)
    (ho : ∀ r ∈ olds, t.Child r p) : ¬ t.Within p n ∧ t.parent? n ≠ some p := by
  rcases h with h | ⟨r, hr, ha, hb⟩
  · exact ht.apart_of_detached hp h
  · exact ht.apart (ho r hr) hb ha

/-- The parent of a node that has one is in or below the nodes that are given up. -/
theorem Reusable.parent_within {olds : List NodeId} {q : NodeId} (h : t.Reusable olds n)
    (hq : t.parent? n = some q) : ∃ r ∈ olds, t.Within q r := by
  rcases h with hd | ⟨r, hr, ha, hb⟩
  · rw [(isDetached_iff.mp hd).2.1] at hq
    cases hq
  · obtain ⟨q', hq', hw⟩ := Relation.TransGen.head'_iff.mp hb
    have he := ht.child_unique hq' (ht.held hq).1 ha
    exact ⟨r, hr, he ▸ hw⟩

theorem Reusable.not_root {olds : List NodeId} (h : t.Reusable olds n) : t.root ≠ some n := by
  rcases h with h | ⟨r, hr, -, hb⟩
  · exact (isDetached_iff.mp h).2.2
  · exact ht.not_root_of_below hb

end Reuse

section Exchange

variable {outs ins moved kept : List NodeId} {slots : List (Option NodeId)} {list : List NodeId}

/-- Takes nodes from their parents, then has `p` give up some children for others, and destroys the
ones that were given up. -/
def exchange (t : SyntaxTree) (p : NodeId) (slots : List (Option NodeId)) (list : List NodeId)
    (moved outs ins : List NodeId) : SyntaxTree :=
  outs.foldl destroy ((moved.foldl unlink t).regraft p slots list outs ins)

/-- An exchange in which the nodes that are taken in are detached or below the ones given up. -/
structure Exchange (t : SyntaxTree) (p : NodeId) (slots : List (Option NodeId))
    (list : List NodeId) (moved outs ins kept : List NodeId) : Prop where
  attached : t.isAttached p = true
  reusable : ∀ n ∈ ins, t.Reusable outs n
  taken : ∀ n ∈ moved, n ∈ ins
  freed : t.Freed (moved.foldl unlink t) moved p
  graft : (moved.foldl SyntaxTree.unlink t).Graft p slots list outs ins kept

theorem Exchange.linked (h : t.Exchange p slots list moved outs ins kept) :
    (t.exchange p slots list moved outs ins).Linked := by
  have hl := h.freed.linked
  refine (h.graft.linked hl).foldl_destroy fun n hn => ⟨?_, ?_⟩
  · have hp := hl.named (h.graft.out_child hn) h.graft.alive
    rw [h.graft.parent? hl, if_neg (h.graft.not_ins_of_parent hp), if_pos hn]
  · intro hr
    rw [root_regraft] at hr
    have hp := hl.named (h.graft.out_child hn) h.graft.alive
    rw [(hl.root hr).2] at hp
    cases hp

/-- The nodes that were given up still name their parent when they are destroyed; this makes no
difference. -/
theorem Graft.foldl_destroy_eq (h : t.Graft p slots list outs ins kept) (ht : t.Linked)
    {f : Node → Node} (hf : f (t.node p) = { t.node p with slots := slots, list := list }) :
    outs.foldl destroy (ins.foldl
      (fun u c => u.update c fun d => { d with parent := some p }) (t.update p f)) =
      outs.foldl destroy (t.regraft p slots list outs ins) := by
  have hnode : ∀ m, (ins.foldl (fun u c => u.update c fun d => { d with parent := some p })
      (t.update p f)).node m = if m ∈ outs then t.node m
        else (t.regraft p slots list outs ins).node m := by
    intro m
    rw [node_foldl_update, node_update, h.node ht, size_update]
    · by_cases ho : m ∈ outs
      · have hc := h.out_child ho
        have hi := h.not_ins_of_parent (ht.named hc h.alive)
        simp [ho, hi, ht.child_ne hc]
      · by_cases hp : m = p
        · subst hp
          have hlt := lt_of_alive h.alive
          by_cases hi : m ∈ ins <;> simp [ho, hi, hlt, hf]
        · by_cases hi : m ∈ ins
          · have hlt := lt_of_alive (h.ins_alive hi)
            simp [ho, hp, hi, hlt]
          · simp [ho, hp, hi]
    · exact fun _ => rfl
  have hm := marks_foldl_update (f := fun d => { d with parent := some p }) ins (t.update p f)
  refine foldl_destroy_congr (h.linked ht) ?_ ?_ ?_ ?_ ?_ ?_
  · simp [hm.1]
  · simp [hm.2.1]
  · simp [hm.2.2.1]
  · simp [hm.2.2.2]
  · intro m ho
    have hc := h.out_child ho
    rw [SyntaxTree.parent?, hnode, if_pos ho, h.node ht]
    simp [ht.child_ne hc]
  · intro m ho
    rw [hnode, if_neg ho]

theorem Exchange.foldl_destroy_eq (h : t.Exchange p slots list moved outs ins kept)
    {f : Node → Node} (hf : f (t.node p) = { t.node p with slots := slots, list := list }) :
    outs.foldl destroy (ins.foldl (fun u c => u.update c fun d => { d with parent := some p })
      ((moved.foldl unlink t).update p f)) = t.exchange p slots list moved outs ins := by
  apply h.graft.foldl_destroy_eq h.freed.linked
  rwa [h.freed.holder]

end Exchange

end TreeTidy.SyntaxTree
