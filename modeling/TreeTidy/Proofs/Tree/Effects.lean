import TreeTidy.Proofs.Tree.Edits
import TreeTidy.Proofs.Tree.Ways
/-!
What an edit does to the document of the root: it is another one at the place of the edit, and the
same everywhere else.
-/
namespace TreeTidy.SyntaxTree

variable {t u : SyntaxTree} {c m n p r : NodeId} {outs ins moved kept : List NodeId}
  {slots : List (Option NodeId)} {list : List NodeId} {way : List Position}

theorem doc_of_data (hs : u.size = t.size) (h : ∀ m, (u.node m).data = (t.node m).data)
    (n : NodeId) : u.doc n = t.doc n := by
  rw [doc, docWithin_congr (fun m _ => h m), hs, doc]

@[simp] theorem doc_bump : t.bump.doc n = t.doc n :=
  doc_of_data size_bump (fun _ => by rw [node_bump]) n

@[simp] theorem doc_withRoot : (t.withRoot m).doc n = t.doc n :=
  doc_of_data size_withRoot (fun _ => by rw [node_withRoot]) n

theorem doc_update {f : Node → Node} (hf : ∀ d, (f d).data = d.data) :
    (t.update m f).doc n = t.doc n := by
  refine doc_of_data size_update ?_ n
  intro a
  rw [node_update]
  split
  · exact hf _
  · rfl

theorem doc_foldl_destroy (ht : t.Linked) (ns : List NodeId) :
    (ns.foldl destroy t).doc n = t.doc n := by
  refine doc_of_data (marks_foldl_destroy ns t).1 ?_ n
  intro a
  rw [node_foldl_destroy ht]
  split <;> rfl

/-- A node that is taken from its parent keeps its document. -/
theorem doc_unlink_self (ht : t.Linked) : (t.unlink n).doc n = t.doc n := by
  refine ht.doc_congr (marks_unlink t n).1.ge fun m hm => data_unlink ht ?_
  intro hp
  exact ht.below_irrefl n (Relation.TransGen.head' (ht.held hp).1 hm)

namespace Exchange

variable (h : t.Exchange p slots list moved outs ins kept)
include h

theorem marks : (t.exchange p slots list moved outs ins).size = t.size ∧
    (t.exchange p slots list moved outs ins).root = t.root ∧
    (t.exchange p slots list moved outs ins).id = t.id ∧
    (t.exchange p slots list moved outs ins).revision = t.revision := by
  have hm := marks_foldl_destroy outs ((moved.foldl unlink t).regraft p slots list outs ins)
  have hf := h.freed.marks
  simp only [size_regraft, root_regraft, id_regraft, revision_regraft] at hm
  exact ⟨hm.1.trans hf.1, hm.2.1.trans hf.2.1, hm.2.2.1.trans hf.2.2.1, hm.2.2.2.trans hf.2.2.2⟩

/-- Only the place itself holds other children than when the nodes were taken. -/
theorem data_of_ne (hm : m ≠ p) : ((t.exchange p slots list moved outs ins).node m).data =
    ((moved.foldl unlink t).node m).data := by
  have hl := h.freed.linked
  rw [SyntaxTree.exchange, node_foldl_destroy (h.graft.linked hl), h.graft.node hl, if_neg hm,
    if_neg hm]
  split <;> rfl

/-- Nodes change that hold other children afterwards: the one place, and where nodes were taken. -/
theorem data (hm : m ≠ p) (hp : ∀ n ∈ moved, t.parent? n ≠ some m) :
    ((t.exchange p slots list moved outs ins).node m).data = (t.node m).data :=
  (h.data_of_ne hm).trans (h.freed.data m hp)

theorem node_self : ((t.exchange p slots list moved outs ins).node p).data =
    ({ t.node p with slots := slots, list := list } : Node).data := by
  have hl := h.freed.linked
  rw [SyntaxTree.exchange, node_foldl_destroy (h.graft.linked hl), h.graft.node hl, if_pos rfl,
    if_pos rfl, h.freed.holder]
  split <;> rfl

theorem doc_self : (t.exchange p slots list moved outs ins).doc p =
    .node (t.kind p) (t.span p) (t.node p).ty
      (slots.map (Option.map (t.exchange p slots list moved outs ins).doc))
      (list.map (t.exchange p slots list moved outs ins).doc) := by
  have hd := h.node_self
  simp only [Node.data, Prod.mk.injEq] at hd
  rw [h.linked.doc_eq, kind, span, hd.1, hd.2.1, hd.2.2.1, hd.2.2.2.1, hd.2.2.2.2]
  rfl

theorem children_perm : (t.children p).Perm (outs ++ kept) := by
  have hb := h.graft.before
  rwa [children, h.freed.holder] at hb

theorem out_child (hr : r ∈ outs) : t.Child r p :=
  h.children_perm.mem_iff.mpr (List.mem_append_left _ hr)

variable (ht : t.Linked)
include ht

theorem successor (m : NodeId) :
    ((t.exchange p slots list moved outs ins).node m).successor = (t.node m).successor := by
  have hl := h.freed.linked
  rw [← successor_foldl_unlink ht moved m, SyntaxTree.exchange, node_foldl_destroy (h.graft.linked hl),
    h.graft.node hl]
  split <;> rfl

/-- What is taken from a living node was below one of the children that are given up. -/
theorem moved_parent (hn : n ∈ moved) (hp : t.parent? n = some m) : ∃ r ∈ outs, t.Within m r :=
  (h.reusable n (h.taken n hn)).parent_within ht hp

theorem doc_kept (hc : c ∈ kept) : (t.exchange p slots list moved outs ins).doc c = t.doc c := by
  have hcp : t.Child c p := h.children_perm.mem_iff.mpr (List.mem_append_right _ hc)
  refine ht.doc_congr (h.marks).1.ge fun m hm => h.data ?_ ?_
  · exact fun he => ht.below_irrefl p (Within.below (he ▸ hm) hcp)
  · intro n hn hp
    obtain ⟨r, hr, hmr⟩ := h.moved_parent ht hn hp
    have hne : c ≠ r := by
      intro he
      exact (List.nodup_append.mp (h.children_perm.nodup_iff.mp (ht.nodup p))).2.2 r hr c hc he.symm
    exact ht.disjoint_children (attached_alive h.attached) hcp (h.out_child hr) hne ⟨hm, hmr⟩

/-- If none of the nodes taken in is below another one, they keep their documents. -/
theorem doc_taken (hn : ∀ a ∈ ins, ∀ b ∈ ins, ¬ t.Below a b) (hc : c ∈ ins) :
    (t.exchange p slots list moved outs ins).doc c = t.doc c := by
  refine ht.doc_congr (h.marks).1.ge fun m hm => h.data ?_ ?_
  · rintro rfl
    exact ((h.reusable c hc).apart ht h.attached fun r hr => h.out_child hr).1 hm
  · intro a ha hp
    exact hn a (h.taken a ha) c hc (Relation.TransGen.head' (ht.held hp).1 hm)

/-- The document of the place, if none of the nodes taken in is below another one. -/
theorem doc_parts (hn : ∀ a ∈ ins, ∀ b ∈ ins, ¬ t.Below a b) :
    (t.exchange p slots list moved outs ins).doc p =
      .node (t.kind p) (t.span p) (t.node p).ty (slots.map (Option.map t.doc)) (list.map t.doc) := by
  have hc : ∀ c, some c ∈ slots ∨ c ∈ list →
      (t.exchange p slots list moved outs ins).doc c = t.doc c := by
    intro c hc
    have hm : c ∈ ({ t.node p with slots := slots, list := list } : Node).children :=
      Node.mem_children.mpr hc
    rcases List.mem_append.mp (h.graft.after.mem_iff.mp hm) with hi | hk
    · exact h.doc_taken ht hn hi
    · exact h.doc_kept ht hk
  rw [h.doc_self, Doc.node.injEq]
  refine ⟨rfl, rfl, rfl, List.map_congr_left ?_, List.map_congr_left fun c hm => hc c (.inr hm)⟩
  intro o ho
  cases o with
  | none => rfl
  | some c => exact congrArg some (hc c (.inl ho))

/-- The document of the root is exchanged at the place only. -/
theorem rootDoc? (hr : t.root = some r) (hw : t.at? r way = some p) :
    (t.exchange p slots list moved outs ins).rootDoc? =
      some ((t.doc r).put way ((t.exchange p slots list moved outs ins).doc p)) := by
  rw [SyntaxTree.rootDoc?, (h.marks).2.1, hr, Option.map_some]
  refine congrArg some (doc_put ht h.linked (h.marks).1.ge (ht.root hr).1 ?_ hw)
  intro m hm
  refine h.data (fun he => hm (he ▸ .refl)) ?_
  intro n hn hp
  obtain ⟨a, ha, hma⟩ := h.moved_parent ht hn hp
  exact hm (hma.tail (h.out_child ha))

end Exchange

end TreeTidy.SyntaxTree
