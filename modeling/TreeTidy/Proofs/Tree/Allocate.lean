import TreeTidy.Proofs.Tree.Fits
import TreeTidy.Proofs.Tree.Growth
/-!
A new node is a childless one that takes detached nodes in.
-/
namespace TreeTidy.SyntaxTree

variable {t u : SyntaxTree} {c m n p : NodeId} {d : Node} {kind : NodeKind} {span : Span}
  {ty : Option TypeDesc} {slots : List (Option NodeId)} {list : List NodeId}

/-- The tree with one more node, that nothing holds. -/
def push (t : SyntaxTree) (d : Node) : SyntaxTree := { t with nodes := t.nodes.push d }

@[simp] theorem size_push : (t.push d).size = t.size + 1 := by simp [push, size]

@[simp] theorem root_push : (t.push d).root = t.root := rfl

@[simp] theorem id_push : (t.push d).id = t.id := rfl

@[simp] theorem revision_push : (t.push d).revision = t.revision := rfl

theorem node_push : (t.push d).node m = if m = t.size then d else t.node m := by
  simp only [push, node, size, Array.getD]
  by_cases hm : m = t.nodes.size
  · simp [hm]
  · by_cases hlt : m < t.nodes.size
    · have : m < t.nodes.size + 1 := Nat.lt_succ_of_lt hlt
      simp [hm, hlt, this, Array.getElem_push_lt hlt]
    · have : ¬ m < t.nodes.size + 1 := by
        intro h
        exact hm (Nat.le_antisymm (Nat.le_of_lt_succ h) (Nat.not_lt.mp hlt))
      simp [hm, hlt, this]

theorem node_push_of_lt (hm : m < t.size) : (t.push d).node m = t.node m := by
  rw [node_push, if_neg (Nat.ne_of_lt hm)]

theorem extends_push : t.Extends (t.push d) where
  size := by simp
  root := rfl
  id := rfl
  revision := rfl
  node hm := node_push_of_lt hm

theorem child_push (hd : d.children = []) : (t.push d).Child c p ↔ t.Child c p := by
  rw [Child, children, node_push]
  split
  next hp =>
    rw [hd, Child, children, node_of_size_le (Nat.le_of_eq hp.symm)]
    rfl
  next => rfl

theorem Linked.push (ht : t.Linked) (hc : d.children = []) (hp : d.parent = none) :
    (t.push d).Linked where
  root {r} hr := by
    obtain ⟨ha, hn⟩ := ht.root hr
    rw [isAlive, parent?, node_push_of_lt (lt_of_alive ha)]
    exact ⟨ha, hn⟩
  child {c p} h := by
    obtain ⟨hlt, ha⟩ := ht.child ((child_push hc).mp h)
    have hp : p < t.size := by
      by_contra hp
      rw [child_push hc, Child, children, node_of_size_le (Nat.not_lt.mp hp)] at h
      cases h
    rw [size_push, isAlive, isAlive, node_push_of_lt hlt, node_push_of_lt hp]
    exact ⟨Nat.lt_succ_of_lt hlt, ha⟩
  named {c p} h ha := by
    rw [child_push hc] at h
    have hp : p < t.size := by
      by_contra hp
      rw [Child, children, node_of_size_le (Nat.not_lt.mp hp)] at h
      cases h
    rw [isAlive, node_push_of_lt hp] at ha
    rw [parent?, node_push_of_lt (ht.child h).1]
    exact ht.named h ha
  held {c p} h := by
    rw [parent?, node_push] at h
    split at h
    next =>
      rw [hp] at h
      cases h
    next hn =>
      obtain ⟨hcp, ha⟩ := ht.held h
      rw [child_push hc, isAlive, node_push, if_neg hn]
      exact ⟨hcp, ha⟩
  nodup p := by
    rw [children, node_push]
    split
    next => rw [hc]; exact List.nodup_nil
    next => exact ht.nodup p
  acyclic := by
    have h : (t.push d).Child = t.Child := by
      funext c p
      exact propext (child_push hc)
    rw [h]
    exact ht.acyclic

/-- The new node is where the next one is made, and its children come from among the detached. -/
theorem allocate_eq (t : SyntaxTree)
    (hc : ∀ c ∈ (⟨kind, span, ty, slots, list, none, true, none⟩ : Node).children, c < t.size) :
    t.allocate kind span ty slots list =
      (t.push ⟨kind, span, ty, [], [], none, true, none⟩).regraft t.size slots list []
        (⟨kind, span, ty, slots, list, none, true, none⟩ : Node).children := by
  refine eq_of_nodes ?_ ?_ ?_ ?_ ?_
  · rw [size_regraft, size_push, allocate, (marks_foldl_update _ _).1]
    simp [size]
  · intro m
    have hl : t.allocate kind span ty slots list =
        (⟨kind, span, ty, slots, list, none, true, none⟩ : Node).children.foldl
          (fun u c => u.update c fun e => { e with parent := some t.size })
          (t.push ⟨kind, span, ty, slots, list, none, true, none⟩) := rfl
    rw [hl, node_foldl_update]
    · by_cases hm : m < t.size + 1
      · rw [node_regraft (by simpa using hm), node_push, node_push, size_push]
        by_cases hms : m = t.size
        · have hn : m ∉ (⟨kind, span, ty, slots, list, none, true, none⟩ : Node).children :=
            fun h => Nat.lt_irrefl _ (hms ▸ hc m h)
          subst hms
          simp [hn]
        · simp only [hms, if_false, hm, and_true, List.not_mem_nil]
          split <;> rfl
      · rw [node_of_size_le (t := t.push _) (by simpa using hm), if_neg,
          node_of_size_le (by simpa using hm)]
        simp [hm]
    · exact fun _ => rfl
  · simp [allocate, (marks_foldl_update _ _).2.1]
  · simp [allocate, (marks_foldl_update _ _).2.2.1]
  · simp [allocate, (marks_foldl_update _ _).2.2.2]

/-- A new node that holds the slots and the list. -/
structure Made (t : SyntaxTree) (kind : NodeKind) (span : Span) (ty : Option TypeDesc)
    (slots : List (Option NodeId)) (list : List NodeId) (n : NodeId) (u : SyntaxTree) : Prop where
  linked : u.Linked
  grown : t.Grown u
  fresh : n = t.size
  size : u.size = t.size + 1
  node : u.node n = ⟨kind, span, ty, slots, list, none, true, none⟩
  parent : ∀ m, m ≠ n → u.parent? m =
    if m ∈ (u.node n).children then some n else t.parent? m

theorem Linked.allocate (ht : t.Linked)
    (h : t.Loose (⟨kind, span, ty, slots, list, none, true, none⟩ : Node).children) :
    t.Made kind span ty slots list t.size (t.allocate kind span ty slots list) := by
  set d : Node := ⟨kind, span, ty, slots, list, none, true, none⟩ with hd
  set d₀ : Node := ⟨kind, span, ty, [], [], none, true, none⟩ with hd₀
  have hlt : ∀ c ∈ d.children, c < t.size := by
    intro c hc
    exact lt_of_alive (isDetached_iff.mp (h.detached c hc)).1
  have he := allocate_eq t hlt
  have hp : (t.push d₀).Linked := ht.push rfl rfl
  have hn : (t.push d₀).node t.size = d₀ := by rw [node_push, if_pos rfl]
  have hg : (t.push d₀).Graft t.size slots list [] d.children [] := by
    refine ⟨?_, ?_, ?_, h.nodup, ?_, ?_⟩
    · rw [isAlive, hn]
    · rw [children, hn]
      exact .refl _
    · rw [List.append_nil]
      exact .refl _
    · intro c hc
      rw [extends_push.isDetached (hlt c hc)]
      exact h.detached c hc
    · intro c hc hw
      -- nothing holds the new node
      rcases Relation.ReflTransGen.cases_head hw with rfl | ⟨q, hq, -⟩
      · exact Nat.lt_irrefl _ (hlt _ hc)
      · exact Nat.lt_irrefl _ (ht.child ((child_push rfl).mp hq)).1
  have hnode := hg.node hp
  have hparent := hg.parent? hp
  rw [← he] at hnode hparent
  have hself : (t.allocate kind span ty slots list).node t.size = d := by
    rw [hnode, hn, if_neg fun hc => Nat.lt_irrefl _ (hlt _ hc)]
    simp [hd, hd₀]
  refine ⟨?_, ⟨?_, ?_, ?_, ?_, fun {m} hm => ?_, fun {m} hm hdm => ?_⟩, rfl, ?_, hself, ?_⟩
  · rw [he]
    exact hg.linked hp
  · simp [he]
  · simp [he]
  · simp [he]
  · simp [he]
  · have hne : m ≠ t.size := Nat.ne_of_lt hm
    rw [parent?, hnode, node_push_of_lt hm, if_neg hne, if_neg hne]
  · have hc : m ∉ d.children := by
      intro hc
      exact Bool.false_ne_true (hdm.symm.trans (h.detached m hc))
    rw [hparent, if_neg hc, if_neg List.not_mem_nil, parent?, node_push_of_lt hm, parent?]
  · simp [he]
  · intro m hm
    rw [hself, hparent, if_neg List.not_mem_nil, parent?, parent?, node_push, if_neg hm]

theorem Linked.create? {s : NodeSpec} (ht : t.Linked) (h : t.create? s = .ok (n, u)) :
    t.Made s.kind s.span s.ty (padSlots s.kind.layout.slots.length s.slots) s.list n u := by
  obtain ⟨-, hl, -, he⟩ := create?_eq_ok.mp h
  cases he
  exact ht.allocate hl

namespace Made

variable (h : t.Made kind span ty slots list n u)
include h

theorem isDetached (ht : t.Linked) : u.isDetached n = true := by
  refine isDetached_iff.mpr ⟨?_, ?_, ?_⟩
  · rw [isAlive, h.node]
  · rw [parent?, h.node]
  · intro hr
    rw [h.grown.root] at hr
    exact Nat.lt_irrefl _ (h.fresh ▸ lt_of_alive (ht.root hr).1)

/-- Detached nodes that the new one does not hold stay so. -/
theorem isDetached_of_detached (hc : t.isDetached c = true) (hn : c ∉ (u.node n).children) :
    u.isDetached c = true := by
  obtain ⟨ha, hp, hr⟩ := isDetached_iff.mp hc
  have hlt := lt_of_alive ha
  have hne : c ≠ n := h.fresh ▸ Nat.ne_of_lt hlt
  refine isDetached_iff.mpr ⟨(h.grown.isAlive hlt).trans ha, ?_, h.grown.root ▸ hr⟩
  rw [h.parent c hne, if_neg hn, hp]

/-- If the children are new as well, all older nodes stay as they were. -/
theorem extends_of_new {t₀ : SyntaxTree} (hk : t₀.Extends t)
    (hc : ∀ c ∈ (u.node n).children, t₀.size ≤ c) : t₀.Extends u where
  size := hk.size.trans h.grown.size
  root := h.grown.root.trans hk.root
  id := h.grown.id.trans hk.id
  revision := h.grown.revision.trans hk.revision
  node {m} hm := by
    have hmt : m < t.size := lt_of_lt_of_le hm hk.size
    have hp := h.parent m (h.fresh ▸ Nat.ne_of_lt hmt)
    rw [if_neg fun hmc => Nat.not_le.mpr hm (hc m hmc)] at hp
    rw [h.grown.node hmt, hp, parent?, hk.node hm]

/-- The new node has the document that its children's documents give. -/
theorem doc (ht : t.Linked)
    (hc : ∀ c ∈ (⟨kind, span, ty, slots, list, none, true, none⟩ : Node).children, c < t.size) :
    u.doc n = .node kind span ty (slots.map (Option.map t.doc)) (list.map t.doc) := by
  rw [h.linked.doc_eq, SyntaxTree.kind, SyntaxTree.span, h.node, Doc.node.injEq]
  simp only [Node.mem_children] at hc
  refine ⟨rfl, rfl, rfl, List.map_congr_left ?_, List.map_congr_left ?_⟩
  · intro o ho
    cases o with
    | none => rfl
    | some c => exact congrArg some (h.grown.doc ht (hc c (.inl ho)))
  · intro c hl
    exact h.grown.doc ht (hc c (.inr hl))

end Made

end TreeTidy.SyntaxTree
