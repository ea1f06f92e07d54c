import TreeTidy.Proofs.Document.Parts
import TreeTidy.Proofs.Tree.Regraft
/-!
Ways in a tree lead where they lead in its document. If nodes change at one place and below it only,
then the document changes at that place only.
-/
namespace TreeTidy.SyntaxTree

variable {t u : SyntaxTree} {c m n p : NodeId} {pos : Position} {way later : List Position}

/-- The node that a way leads to from a node. -/
def at? (t : SyntaxTree) : NodeId → List Position → Option NodeId
  | n, [] => some n
  | n, pos :: way => ((t.node n).at? pos).bind fun c => at? t c way

theorem at?_cons (h : (t.node n).at? pos = some c) : t.at? n (pos :: way) = t.at? c way := by
  rw [at?, h, Option.bind_some]

theorem at?_append : t.at? n (way ++ later) = (t.at? n way).bind fun c => t.at? c later := by
  induction way generalizing n with
  | nil => rfl
  | cons pos way ih =>
    cases h : (t.node n).at? pos with
    | none => rw [List.cons_append, at?, at?, h]; rfl
    | some c => rw [List.cons_append, at?_cons h, at?_cons h, ih]

theorem within_of_at? (h : t.at? n way = some m) : t.Within m n := by
  induction way generalizing n with
  | nil =>
    cases h
    exact .refl
  | cons pos way ih =>
    obtain ⟨c, hc, hw⟩ := Option.bind_eq_some_iff.mp h
    exact (ih hw).tail (Node.mem_children_iff.mpr ⟨pos, hc⟩)

theorem exists_at? (h : t.Within m n) : ∃ way, t.at? n way = some m := by
  induction h using Relation.ReflTransGen.head_induction_on with
  | refl => exact ⟨[], rfl⟩
  | @head a b hab _ ih =>
    obtain ⟨way, hw⟩ := ih
    obtain ⟨pos, hp⟩ := Node.mem_children_iff.mp hab
    refine ⟨way ++ [pos], ?_⟩
    rw [at?_append, hw, Option.bind_some, at?_cons hp, at?]

namespace Linked

variable (ht : t.Linked)
include ht

theorem child?_doc (n : NodeId) (pos : Position) :
    (t.doc n).child? pos = ((t.node n).at? pos).map t.doc := by
  rw [ht.doc_eq]
  cases pos with
  | slot i =>
    simp only [Doc.child?, Doc.slots, Node.at?, List.getElem?_map]
    rcases (t.node n).slots[i]? with _ | _ | c <;> rfl
  | list i => exact List.getElem?_map

theorem at?_doc (n : NodeId) (way : List Position) :
    (t.doc n).at? way = (t.at? n way).map t.doc := by
  induction way generalizing n with
  | nil => rfl
  | cons pos way ih =>
    rw [Doc.at?, at?, ht.child?_doc]
    cases (t.node n).at? pos with
    | none => rfl
    | some c => exact ih c

theorem kind_doc (n : NodeId) : (t.doc n).kind = t.kind n := by
  rw [ht.doc_eq, Doc.kind]

theorem span_doc (n : NodeId) : (t.doc n).span = t.span n := by
  rw [ht.doc_eq, Doc.span]

/-- Two ways to a living node are the same. -/
theorem at?_unique {way' : List Position} (hn : t.isAlive n = true) (h : t.at? n way = some m)
    (h' : t.at? n way' = some m) : way = way' := by
  induction way generalizing n way' with
  | nil =>
    cases h
    cases way' with
    | nil => rfl
    | cons pos way' =>
      obtain ⟨c, hc, hw⟩ := Option.bind_eq_some_iff.mp h'
      have hb := (within_of_at? hw).below (Node.mem_children_iff.mpr ⟨pos, hc⟩)
      exact absurd hb (ht.below_irrefl m)
  | cons pos way ih =>
    obtain ⟨c, hc, hw⟩ := Option.bind_eq_some_iff.mp h
    have hcn := Node.mem_children_iff.mpr ⟨pos, hc⟩
    cases way' with
    | nil =>
      cases h'
      exact absurd ((within_of_at? hw).below hcn) (ht.below_irrefl m)
    | cons pos' way' =>
      obtain ⟨c', hc', hw'⟩ := Option.bind_eq_some_iff.mp h'
      have hcn' := Node.mem_children_iff.mpr ⟨pos', hc'⟩
      have he : c = c' := by
        by_contra hne
        exact ht.disjoint_children hn hcn hcn' hne ⟨within_of_at? hw, within_of_at? hw'⟩
      subst he
      rw [Node.at?_unique (ht.nodup n) hc hc', ih ((ht.child hcn).2.trans hn) hw hw']

end Linked

/-- Two lists of values that differ at one index. -/
private theorem map_eq_set {α β : Type} {l : List α} {f g : α → β} {i : Nat} {a : α}
    (hi : l[i]? = some a) (h : ∀ j b, l[j]? = some b → j ≠ i → f b = g b) :
    l.map f = (l.map g).set i (f a) := by
  apply List.ext_getElem?
  intro j
  rw [List.getElem?_set, List.getElem?_map, List.getElem?_map, List.length_map]
  have hlt := (List.getElem?_eq_some_iff.mp hi).1
  by_cases hj : i = j
  · subst hj
    rw [if_pos rfl, if_pos hlt, hi, Option.map_some]
  · rw [if_neg hj]
    cases hb : l[j]? with
    | none => rfl
    | some b => rw [Option.map_some, Option.map_some, h j b hb (Ne.symm hj)]

/-- A node of which one child only has another document has a document that differs there only. -/
theorem doc_setChild (ht : t.Linked) (hu : u.Linked) (hd : (u.node n).data = (t.node n).data)
    (hc : (t.node n).at? pos = some c)
    (hother : ∀ b pos', (t.node n).at? pos' = some b → pos' ≠ pos → u.doc b = t.doc b) :
    u.doc n = (t.doc n).setChild (u.doc c) pos := by
  simp only [Node.data, Prod.mk.injEq] at hd
  rw [hu.doc_eq, ht.doc_eq]
  cases pos with
  | slot i =>
    rw [Node.at?_slot] at hc
    simp only [Doc.setChild, Doc.kind, Doc.span, Doc.ty, Doc.slots, Doc.list, Doc.node.injEq, hd,
      kind, span, true_and]
    constructor
    · apply map_eq_set hc
      intro j o ho hj
      cases o with
      | none => rfl
      | some b =>
        have hne : Position.slot j ≠ .slot i := fun he => hj (Position.slot.inj he)
        exact congrArg some (hother b (.slot j) (Node.at?_slot.mpr ho) hne)
    · apply List.map_congr_left
      intro b hb
      obtain ⟨j, hj⟩ := List.mem_iff_getElem?.mp hb
      exact hother b (.list j) hj (by simp)
  | list i =>
    simp only [Doc.setChild, Doc.kind, Doc.span, Doc.ty, Doc.slots, Doc.list, Doc.node.injEq, hd,
      kind, span, true_and]
    constructor
    · apply List.map_congr_left
      intro o ho
      cases o with
      | none => rfl
      | some b =>
        obtain ⟨j, hj⟩ := List.mem_iff_getElem?.mp ho
        exact congrArg some (hother b (.slot j) (Node.at?_slot.mpr hj) (by simp))
    · apply map_eq_set hc
      intro j b hb hj
      have hne : Position.list j ≠ .list i := fun he => hj (Position.list.inj he)
      exact hother b (.list j) hb hne

/-- If no node outside a part has changed, the document has changed at that part only. -/
theorem doc_put (ht : t.Linked) (hu : u.Linked) (hs : t.size ≤ u.size)
    (hn : t.isAlive n = true) (hsame : ∀ m, ¬ t.Within m p → (u.node m).data = (t.node m).data)
    (hway : t.at? n way = some p) : u.doc n = (t.doc n).put way (u.doc p) := by
  induction way generalizing n with
  | nil =>
    cases hway
    rfl
  | cons pos way ih =>
    obtain ⟨c, hc, hw⟩ := Option.bind_eq_some_iff.mp hway
    have hcn : t.Child c n := Node.mem_children_iff.mpr ⟨pos, hc⟩
    have hwp := within_of_at? hw
    have hnp : ¬ t.Within n p := fun h => ht.below_irrefl n (Within.below (h.trans hwp) hcn)
    have hcd : (t.doc n).child? pos = some (t.doc c) := by rw [ht.child?_doc, hc, Option.map_some]
    rw [Doc.put_cons hcd, ← ih ((ht.child hcn).2.trans hn) hw]
    apply doc_setChild ht hu (hsame n hnp) hc
    -- the other children are on no way to the part
    intro b pos' hb hne
    have hbn : t.Child b n := Node.mem_children_iff.mpr ⟨pos', hb⟩
    have hbc : b ≠ c := fun he => hne (Node.at?_unique (ht.nodup n) (he ▸ hb) hc)
    apply ht.doc_congr hs
    intro m hm
    apply hsame m
    intro hmp
    exact ht.disjoint_children hn hbn hcn hbc ⟨hm, hmp.trans hwp⟩

end TreeTidy.SyntaxTree
