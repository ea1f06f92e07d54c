import TreeTidy.Proofs.Tree.Allocate
/-!
Copies. A copy consists of new nodes only, and its document is that of the node that was copied.
-/
namespace TreeTidy.SyntaxTree

variable {t u v : SyntaxTree} {m n : NodeId} {f : Nat} {d : Doc} {ds es : List (Option Doc)}
  {ms ns : List (Option NodeId)}

theorem Extends.loose {cs : List NodeId} (h : t.Extends u) (hl : t.Loose cs) : u.Loose cs where
  detached c hc := by
    have hd := hl.detached c hc
    rw [h.isDetached (lt_of_alive (isDetached_iff.mp hd).1), hd]
  nodup := hl.nodup

theorem Extends.docWithin (h : t.Extends u) (ht : t.Linked) (hn : n < t.size) :
    u.docWithin f n = t.docWithin f n := by
  refine docWithin_congr ?_ f
  intro m hm
  rcases within_iff.mp hm with rfl | hb
  · rw [h.node hn]
  · rw [h.node (hb.lt_size ht)]

/-- `m` is a new detached node with the document. -/
structure Copied (t : SyntaxTree) (d : Doc) (m : NodeId) (u : SyntaxTree) : Prop where
  linked : u.Linked
  kept : t.Extends u
  new : t.size ≤ m
  detached : u.isDetached m = true
  doc : u.doc m = d

/-- `ms` are new detached nodes with the documents, no node twice. -/
structure AllCopied (t : SyntaxTree) (ds : List (Option Doc)) (ms : List (Option NodeId))
    (u : SyntaxTree) : Prop where
  linked : u.Linked
  kept : t.Extends u
  new : ∀ m, some m ∈ ms → t.size ≤ m
  loose : u.Loose (ms.filterMap fun o => o)
  docs : ms.map (Option.map u.doc) = ds

namespace AllCopied

theorem nil (ht : t.Linked) : t.AllCopied [] [] t where
  linked := ht
  kept := .refl t
  new _ hm := absurd hm List.not_mem_nil
  loose := loose_iff.mpr unseen_nil
  docs := rfl

theorem none (ht : t.Linked) : t.AllCopied [.none] [.none] t where
  linked := ht
  kept := .refl t
  new _ hm := by simp at hm
  loose := loose_iff.mpr unseen_nil
  docs := rfl

theorem some (h : t.Copied d m u) : t.AllCopied [some d] [some m] u where
  linked := h.linked
  kept := h.kept
  new a ha := by
    obtain rfl : a = m := by simpa using ha
    exact h.new
  loose := by
    refine ⟨?_, List.nodup_singleton m⟩
    intro a ha
    rw [List.mem_singleton.mp ha]
    exact h.detached
  docs := by simp [h.doc]

theorem lt_size (h : t.AllCopied ds ms u) (hm : .some m ∈ ms) : m < u.size :=
  lt_of_alive (isDetached_iff.mp (h.loose.detached m (List.mem_filterMap.mpr ⟨_, hm, rfl⟩))).1

/-- The copies stay what they are while other nodes are made. -/
theorem later (h : t.AllCopied ds ms u) (hu : u.Extends v) (hv : v.Linked) :
    t.AllCopied ds ms v where
  linked := hv
  kept := h.kept.trans hu
  new := h.new
  loose := hu.loose h.loose
  docs := by
    rw [← h.docs]
    apply List.map_congr_left
    intro o ho
    cases o with
    | none => rfl
    | some m => exact congrArg Option.some (hu.grown.doc h.linked (h.lt_size ho))

theorem append (h : t.AllCopied ds ms u) (hs : u.AllCopied es ns v) :
    t.AllCopied (ds ++ es) (ms ++ ns) v := by
  have hl := h.later hs.kept hs.linked
  refine ⟨hs.linked, hl.kept, ?_, ⟨?_, ?_⟩, ?_⟩
  · intro m hm
    rcases List.mem_append.mp hm with hm | hm
    · exact h.new m hm
    · exact h.kept.size.trans (hs.new m hm)
  · intro c hc
    rw [List.filterMap_append, List.mem_append] at hc
    exact hc.elim (hl.loose.detached c) (hs.loose.detached c)
  · rw [List.filterMap_append, List.nodup_append]
    refine ⟨hl.loose.nodup, hs.loose.nodup, ?_⟩
    rintro a ha _ hb rfl
    simp only [List.mem_filterMap, exists_eq_right] at ha hb
    exact Nat.not_le.mpr (h.lt_size ha) (hs.new a hb)
  · rw [List.map_append, hl.docs, hs.docs]

end AllCopied

/-- All nodes that were made in between are some nodes or below them. -/
def Covers (t : SyntaxTree) (ms : List (Option NodeId)) (u : SyntaxTree) : Prop :=
  ∀ k, t.size ≤ k → k < u.size → ∃ m, some m ∈ ms ∧ u.Within k m

theorem covers_refl (t : SyntaxTree) (ms : List (Option NodeId)) : t.Covers ms t :=
  fun _ hk hlt => absurd hlt (Nat.not_lt.mpr hk)

theorem covers_append (h : t.AllCopied ds ms u) (hs : u.AllCopied es ns v)
    (hm : t.Covers ms u) (hn : u.Covers ns v) : t.Covers (ms ++ ns) v := by
  intro k hk hlt
  rcases Nat.lt_or_ge k u.size with hku | hku
  · obtain ⟨m, hmem, hw⟩ := hm k hk hku
    refine ⟨m, List.mem_append_left _ hmem, ?_⟩
    exact (hs.kept.grown.within_iff h.linked (h.lt_size hmem)).mpr hw
  · obtain ⟨m, hmem, hw⟩ := hn k hku hlt
    exact ⟨m, List.mem_append_right _ hmem, hw⟩

/-- A list of nodes is copied like slots that are all filled. -/
private theorem mapThrough_some (g : SyntaxTree → NodeId → NodeId × SyntaxTree)
    (as : List NodeId) : mapThrough (mapSlot g) t (as.map some) =
      ((mapThrough g t as).1.map some, (mapThrough g t as).2) := by
  induction as generalizing t with
  | nil => rfl
  | cons a as ih => simp only [List.map_cons, mapThrough, mapSlot, ih]

private theorem allCopied_mapThrough {g : SyntaxTree → NodeId → NodeId × SyntaxTree}
    (hg : ∀ (v : SyntaxTree) n, v.Linked → v.Copied (v.docWithin f n) (g v n).1 (g v n).2 ∧
      v.Covers [some (g v n).1] (g v n).2)
    (ht : t.Linked) (os : List (Option NodeId)) (hos : ∀ n, some n ∈ os → n < t.size) :
    t.AllCopied (os.map (Option.map (t.docWithin f))) (mapThrough (mapSlot g) t os).1
      (mapThrough (mapSlot g) t os).2 ∧
    t.Covers (mapThrough (mapSlot g) t os).1 (mapThrough (mapSlot g) t os).2 := by
  induction os generalizing t with
  | nil => exact ⟨.nil ht, covers_refl t []⟩
  | cons o os ih =>
    cases o with
    | none =>
      have hn := AllCopied.none ht
      obtain ⟨hs, hc⟩ := ih ht fun n hn => hos n (.tail _ hn)
      exact ⟨hn.append hs, covers_append hn hs (covers_refl t [none]) hc⟩
    | some n =>
      obtain ⟨hn, hnc⟩ := hg t n ht
      have hlt : ∀ a, some a ∈ os → a < t.size := fun a ha => hos a (.tail _ ha)
      obtain ⟨hs, hc⟩ := ih hn.linked fun a ha => lt_of_lt_of_le (hlt a ha) hn.kept.size
      have hd : os.map (Option.map ((g t n).2.docWithin f)) =
          os.map (Option.map (t.docWithin f)) := by
        apply List.map_congr_left
        intro o ho
        cases o with
        | none => rfl
        | some a => exact congrArg some (hn.kept.docWithin ht (hlt a ho))
      rw [hd] at hs
      exact ⟨(AllCopied.some hn).append hs, covers_append (.some hn) hs hnc hc⟩

theorem loose_children {slots : List (Option NodeId)} {list : List NodeId}
    (h : t.AllCopied ds (slots ++ list.map some) u) (kind : NodeKind) (span : Span)
    (ty : Option TypeDesc) :
    u.Loose (⟨kind, span, ty, slots, list, none, true, none⟩ : Node).children := by
  have hc : (⟨kind, span, ty, slots, list, none, true, none⟩ : Node).children =
      (slots ++ list.map some).filterMap fun o => o := by
    rw [List.filterMap_append, List.filterMap_map]
    exact congrArg _ List.filterMap_some.symm
  rw [hc]
  exact h.loose

/-- A new node over copies is a copy. -/
theorem Copied.allocate {slots : List (Option NodeId)} {list : List NodeId}
    {docs : List Doc} (h : t.AllCopied (ds ++ docs.map some) (slots ++ list.map some) u)
    (hlen : slots.length = ds.length) (kind : NodeKind) (span : Span) (ty : Option TypeDesc) :
    t.Copied (.node kind span ty ds docs) u.size (u.allocate kind span ty slots list) := by
  have hl := loose_children h kind span ty
  have hm := h.linked.allocate hl
  have hd := h.docs
  rw [List.map_append, List.map_map] at hd
  obtain ⟨hds, hdocs⟩ := List.append_inj hd (by simpa using hlen)
  have hnew : ∀ c ∈ ((u.allocate kind span ty slots list).node u.size).children, t.size ≤ c := by
    rw [hm.node]
    intro c hc
    exact h.new c (by simpa using Node.mem_children.mp hc)
  refine ⟨hm.linked, hm.extends_of_new h.kept hnew, h.kept.size, hm.isDetached h.linked, ?_⟩
  rw [hm.doc h.linked fun c hc => lt_of_alive (isDetached_iff.mp (hl.detached c hc)).1, hds]
  refine congrArg _ (List.map_injective_iff.mpr (Option.some_injective Doc) ?_)
  rw [← hdocs, List.map_map]
  rfl

/-- A new node over all that was made covers it. -/
theorem covers_allocate {slots : List (Option NodeId)} {list : List NodeId}
    (h : t.AllCopied ds (slots ++ list.map some) u) (hc : t.Covers (slots ++ list.map some) u)
    (kind : NodeKind) (span : Span) (ty : Option TypeDesc) :
    t.Covers [some u.size] (u.allocate kind span ty slots list) := by
  have hm := h.linked.allocate (loose_children h kind span ty)
  intro k hk hlt
  refine ⟨u.size, .head _, ?_⟩
  rw [hm.size] at hlt
  rcases Nat.lt_or_eq_of_le (Nat.le_of_lt_succ hlt) with hku | rfl
  · obtain ⟨m, hmem, hw⟩ := hc k hk hku
    have hchild : (u.allocate kind span ty slots list).Child m u.size := by
      rw [Child, children, hm.node, Node.mem_children]
      simpa using hmem
    exact ((hm.grown.within_iff h.linked (h.lt_size hmem)).mpr hw).tail hchild
  · exact .refl

theorem cloneWithin_copied (ht : t.Linked) (f : Nat) (n : NodeId) :
    t.Copied (t.docWithin f n) (cloneWithin f t n).1 (cloneWithin f t n).2 ∧
    t.Covers [some (cloneWithin f t n).1] (cloneWithin f t n).2 := by
  induction f generalizing t n with
  | zero =>
    have h : t.AllCopied ([] ++ ([] : List Doc).map some) ([] ++ ([] : List NodeId).map some) t :=
      .nil ht
    exact ⟨Copied.allocate h rfl _ _ _, covers_allocate h (covers_refl t []) _ _ _⟩
  | succ f ih =>
    have hlt : ∀ c ∈ (t.node n).children, c < t.size := fun c hc => (ht.child hc).1
    simp only [Node.mem_children] at hlt
    obtain ⟨hs, hsc⟩ := allCopied_mapThrough (fun v a hv => ih hv a) ht (t.node n).slots
      fun c hc => hlt c (.inl hc)
    obtain ⟨hl, hlc⟩ := allCopied_mapThrough (fun v a hv => ih hv a) hs.linked
      ((t.node n).list.map some) fun c hc => lt_of_lt_of_le (hlt c (.inr (by simpa using hc))) hs.kept.size
    rw [mapThrough_some] at hl hlc
    have hd : ((t.node n).list.map some).map (Option.map
        ((mapThrough (mapSlot (cloneWithin f)) t (t.node n).slots).2.docWithin f)) =
        ((t.node n).list.map (t.docWithin f)).map some := by
      rw [List.map_map, List.map_map]
      exact List.map_congr_left fun c hc => congrArg some (hs.kept.docWithin ht (hlt c (.inr hc)))
    rw [hd] at hl
    have hlen := congrArg List.length hs.docs
    rw [List.length_map] at hlen
    have hall := hs.append hl
    exact ⟨Copied.allocate hall hlen _ _ _, covers_allocate hall (covers_append hs hl hsc hlc) _ _ _⟩

/-- A copy of a node has its document, and nothing that was there before is changed. -/
theorem Linked.clone (ht : t.Linked) (n : NodeId) :
    t.Copied (t.doc n) (t.clone n).1 (t.clone n).2 :=
  (cloneWithin_copied ht _ n).1

/-- Nothing is made but the copy and what is below it. -/
theorem Linked.within_clone (ht : t.Linked) (hm : t.size ≤ m) (hlt : m < (t.clone n).2.size) :
    (t.clone n).2.Within m (t.clone n).1 := by
  obtain ⟨k, hk, hw⟩ := (cloneWithin_copied ht _ n).2 m hm hlt
  obtain rfl := Option.some.inj (List.mem_singleton.mp hk)
  exact hw

end TreeTidy.SyntaxTree
