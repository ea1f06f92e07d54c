import TreeTidy.Proofs.Document.Parts
import TreeTidy.Proofs.Tree.Refinement
/-!
Nested spans: none is empty, and none reaches beyond the span of the parent. An edit keeps them
nested if what it puts in a place is nested and does not reach beyond that place.
-/
namespace TreeTidy

namespace Doc

variable {d e x y : Doc} {pos : Position} {way : List Position} {kind : NodeKind} {span : Span}
  {ty : Option TypeDesc} {slots : List (Option Doc)} {list : List Doc} {f : Doc → Doc}

/-- No span is empty, and no part reaches beyond what it is a part of. -/
def Nested (d : Doc) : Prop := d.All fun x =>
  x.span.start < x.span.stop ∧ ∀ pos c, x.child? pos = some c → c.span.Within x.span

namespace Nested

theorem child (h : d.Nested) (hc : d.child? pos = some x) : x.Nested ∧ x.span.Within d.span :=
  ⟨All.child h hc, (All.self h).2 pos x hc⟩

theorem at? (h : d.Nested) (hw : d.at? way = some x) : x.Nested := All.at? h hw

theorem node (hs : span.start < span.stop)
    (hc : ∀ c, some c ∈ slots ∨ c ∈ list → c.Nested ∧ c.span.Within span) :
    (Doc.node kind span ty slots list).Nested := by
  refine all_node ⟨hs, fun pos c hpos => ?_⟩ (fun c h => (hc c (.inl h)).1)
    fun c h => (hc c (.inr h)).1
  exact (hc c (exists_child?.mp ⟨pos, hpos⟩)).2

/-- Children may be exchanged for others that are nested in the same span. -/
theorem of_children (h : d.Nested) (hs : e.span = d.span)
    (hc : ∀ pos c, e.child? pos = some c →
      (∃ pos', d.child? pos' = some c) ∨ c.Nested ∧ c.span.Within d.span) : e.Nested := by
  have hall : ∀ pos c, e.child? pos = some c → c.Nested ∧ c.span.Within d.span := by
    intro pos c hpos
    rcases hc pos c hpos with ⟨pos', hd⟩ | hn
    · exact h.child hd
    · exact hn
  refine all_iff.mpr ⟨?_, fun pos c hpos => (hall pos c hpos).1⟩
  rw [hs]
  exact ⟨(All.self h).1, fun pos c hpos => (hall pos c hpos).2⟩

theorem setChild (h : d.Nested) (hc : d.child? pos = some x) (hy : y.Nested)
    (hs : y.span.Within x.span) : (d.setChild y pos).Nested := by
  refine h.of_children span_setChild fun pos' c hpos => ?_
  by_cases hp : pos' = pos
  · subst hp
    cases (child?_setChild hc).symm.trans hpos
    exact .inr ⟨hy, hs.trans (h.child hc).2⟩
  · rw [child?_setChild_of_ne hp] at hpos
    exact .inl ⟨pos', hpos⟩

/-- A part is exchanged for one that does not reach beyond it. -/
theorem put (h : d.Nested) (hw : d.at? way = some x) (hy : y.Nested) (hs : y.span.Within x.span) :
    (d.put way y).Nested ∧ (d.put way y).span.Within d.span := by
  induction way generalizing d with
  | nil =>
    cases hw
    exact ⟨hy, hs⟩
  | cons pos way ih =>
    obtain ⟨c, hc, hw⟩ := Option.bind_eq_some_iff.mp hw
    obtain ⟨hn, hwithin⟩ := ih (h.child hc).1 hw
    rw [put_cons hc, span_setChild]
    exact ⟨h.setChild hc hn hwithin, .refl _⟩

theorem modify (h : d.Nested) (hw : d.at? way = some x) (hy : (f x).Nested)
    (hs : (f x).span.Within x.span) : (d.modify way f).Nested := by
  rw [modify_of_at? hw]
  exact (h.put hw hy hs).1

theorem vacate (h : d.Nested) (pos : Position) : (d.vacate pos).Nested := by
  refine h.of_children (by cases pos <;> rfl) fun pos' c hpos => .inl ?_
  obtain hc | hc := exists_child?.mp ⟨pos', hpos⟩
  · refine exists_child?.mpr (.inl ?_)
    cases pos with
    | slot i => exact (List.mem_or_eq_of_mem_set hc).resolve_right nofun
    | list i => exact hc
  · refine exists_child?.mpr (.inr ?_)
    cases pos with
    | slot i => exact hc
    | list i => exact List.mem_of_mem_eraseIdx hc

theorem splice (h : d.Nested) (i count : Nat) {xs : List Doc}
    (hx : ∀ x ∈ xs, x.Nested ∧ x.span.Within d.span) : (d.splice i count xs).Nested := by
  refine h.of_children rfl fun pos c hpos => ?_
  obtain hc | hc := exists_child?.mp ⟨pos, hpos⟩
  · exact .inl (exists_child?.mpr (.inl hc))
  · have hc : c ∈ d.list.take i ++ xs ++ d.list.drop (i + count) := hc
    rw [List.mem_append, List.mem_append] at hc
    obtain (hc | hc) | hc := hc
    · exact .inl (exists_child?.mpr (.inr (List.mem_of_mem_take hc)))
    · exact .inr (hx c hc)
    · exact .inl (exists_child?.mpr (.inr (List.mem_of_mem_drop hc)))

end Nested

end Doc

namespace SyntaxTree

variable {t u : SyntaxTree} {m n r old new first : NodeId} {count : Nat}

/-- No span is empty, and none reaches beyond the span of the parent. -/
def Nested (t : SyntaxTree) : Prop := ∀ n, t.isAttached n = true →
  (t.span n).start < (t.span n).stop ∧ ∀ p, t.parent? n = some p → (t.span n).Within (t.span p)

/-- Only nodes of the tree have to be looked at. -/
theorem nested_iff_forall_lt : t.Nested ↔ ∀ n, n < t.size → t.isAttached n = true →
    (t.span n).start < (t.span n).stop ∧
      ((t.parent? n).all fun p => decide ((t.span n).Within (t.span p))) = true := by
  simp only [Option.all_eq_true, decide_eq_true_eq]
  exact ⟨fun h n _ => h n, fun h n hn => h n (lt_of_alive (attached_alive hn)) hn⟩

instance (t : SyntaxTree) : Decidable t.Nested := decidable_of_iff _ nested_iff_forall_lt.symm

section

variable (ht : t.Linked)
include ht

theorem Nested.doc (h : t.Nested) (hn : t.isAttached n = true) : (t.doc n).Nested := by
  refine ht.forall_parts.mpr fun m hm => ?_
  have hma := ht.attached_of_within hn hm
  rw [ht.span_doc]
  refine ⟨(h m hma).1, fun pos c hc => ?_⟩
  rw [ht.child?_doc] at hc
  obtain ⟨k, hk, rfl⟩ := Option.map_eq_some_iff.mp hc
  have hchild : t.Child k m := Node.mem_children_iff.mpr ⟨pos, hk⟩
  rw [ht.span_doc]
  exact (h k (ht.attached_child hma hchild)).2 m (ht.named hchild (attached_alive hma))

theorem Linked.nested_iff : t.Nested ↔ ∀ d, t.rootDoc? = some d → d.Nested := by
  constructor
  · intro h d hd
    obtain ⟨r, hr, rfl⟩ := Option.map_eq_some_iff.mp hd
    exact h.doc ht (ht.attached_root hr)
  · intro h n hn
    obtain ⟨r, hr, hw⟩ := ht.isAttached_iff.mp hn
    have hd := h _ (rootDoc?_of_root hr)
    have hall := ht.forall_parts.mp hd
    refine ⟨by simpa [ht.span_doc] using (hall n hw).1, fun p hp => ?_⟩
    have hpa := ht.attached_parent hn hp
    obtain ⟨q, hq, hpw⟩ := ht.isAttached_iff.mp hpa
    obtain rfl : r = q := Option.some.inj (hr.symm.trans hq)
    obtain ⟨pos, -, hat⟩ := ht.exists_position hp
    have hc := (hall p hpw).2 pos (t.doc n) (by rw [ht.child?_doc, hat, Option.map_some])
    rwa [ht.span_doc, ht.span_doc] at hc

/-- What is below a node does not reach beyond it. -/
theorem Nested.span_within (h : t.Nested) (hn : t.isAttached n = true) (hm : t.Within m n) :
    (t.span m).Within (t.span n) := by
  induction hm using Relation.ReflTransGen.head_induction_on with
  | refl => exact .refl _
  | @head c q hc hq ih =>
    have hqa := ht.attached_of_within hn hq
    exact ((h c (ht.attached_child hqa hc)).2 q (ht.named hc (attached_alive hqa))).trans ih

variable (hs : t.Nested)
include hs

theorem Linked.nested_replace (h : t.replace? old new = some u) (hn : (t.doc new).Nested)
    (hw : (t.span new).Within (t.span old)) : u.Nested := by
  obtain ⟨way, hway, hroot⟩ := ht.rootDoc?_replace h
  refine (ht.replace? h).nested_iff.mpr fun d hd => ?_
  obtain ⟨e, he, rfl⟩ := Option.map_eq_some_iff.mp (hroot.symm.trans hd)
  obtain ⟨r, hr, hat⟩ := Option.bind_eq_some_iff.mp hway
  obtain rfl : t.doc r = e := Option.some.inj ((rootDoc?_of_root hr).symm.trans he)
  refine ((ht.nested_iff.mp hs _ he).put (x := t.doc old) ?_ hn ?_).1
  · rw [ht.at?_doc, hat, Option.map_some]
  · rwa [ht.span_doc, ht.span_doc]

theorem Linked.nested_remove (h : t.remove? n = some u) : u.Nested := by
  obtain ⟨way, pos, hway, hroot⟩ := ht.rootDoc?_remove h
  refine (ht.remove? h).nested_iff.mpr fun d hd => ?_
  obtain ⟨e, he, rfl⟩ := Option.map_eq_some_iff.mp (hroot.symm.trans hd)
  have hne := ht.nested_iff.mp hs e he
  unfold Doc.modify
  split
  next x hx =>
    refine (hne.put hx ((hne.at? hx).vacate pos) ?_).1
    cases pos <;> exact .refl _
  · exact hne

theorem Linked.nested_splice (h : t.splice? first count [new] = some u) (hn : (t.doc new).Nested)
    (hw : ∀ p, t.parent? first = some p → (t.span new).Within (t.span p)) : u.Nested := by
  obtain ⟨way, p, i, hway, hi, -, hroot⟩ := ht.rootDoc?_splice h fun a ha b hb => by
    rw [List.mem_singleton.mp ha, List.mem_singleton.mp hb, Bool.eq_false_iff]
    exact fun hab => ht.below_irrefl new (ht.isAncestor_iff.mp hab).2
  refine (ht.splice? h).nested_iff.mpr fun d hd => ?_
  obtain ⟨e, he, rfl⟩ := Option.map_eq_some_iff.mp (hroot.symm.trans hd)
  obtain ⟨r, hr, hat⟩ := Option.bind_eq_some_iff.mp hway
  obtain rfl : t.doc r = e := Option.some.inj ((rootDoc?_of_root hr).symm.trans he)
  have hne := ht.nested_iff.mp hs _ he
  have hx : (t.doc r).at? way = some (t.doc p) := by rw [ht.at?_doc, hat, Option.map_some]
  have hpa : t.isAttached p = true := ht.isAttached_iff.mpr ⟨r, hr, within_of_at? hat⟩
  have hpar := ht.named (Node.mem_children_iff.mpr ⟨.list i, hi⟩) (attached_alive hpa)
  refine hne.modify hx ((hne.at? hx).splice i count ?_) (.refl _)
  intro x hxs
  obtain rfl := List.mem_singleton.mp hxs
  exact ⟨hn, by rw [ht.span_doc, ht.span_doc]; exact hw p hpar⟩

end

end SyntaxTree

end TreeTidy
