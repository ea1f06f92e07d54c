import TreeTidy.Proofs.Document.Conforms
import TreeTidy.Proofs.Document.Parts
import TreeTidy.Proofs.Tree.Outcomes
import TreeTidy.Rules.Binding
/-!
Clear documents. Printing adds no parentheses; so a document is what its text says only if every
expression in it binds tightly enough for its place, and if all that is written to can be. What takes
the place of a node has to be such that the tree stays clear and no span is made up.
-/
namespace TreeTidy

namespace NodeKind

/-- The level at which an expression has to bind at least at a place below a kind. -/
def leastBinding : NodeKind → Position → Nat
  | binary op, .slot 0 => op.precedence + 1
  | binary op, .slot 1 => op.precedence + 2
  | instanceOf, .slot 0 => binding instanceOf
  | unary op, .slot 0 => binding (unary op)
  | castExpr, .slot 1 => binding castExpr
  | fieldAccess _, .slot 0 | methodRef _, .slot 0 | arrayAccess, .slot 0 | methodCall _, .slot 0 => 13
  | conditional, .slot 0 => 2
  | conditional, .slot 2 | assign _, .slot 0 => 1
  | _, _ => 0

/-- Whether a kind can stand at a place below another one without parentheses. A choice may end with a
lambda, too, which goes on to the end anyway. -/
def Bears (k : NodeKind) (pos : Position) (c : NodeKind) : Prop :=
  k.leastBinding pos ≤ c.binding ∨ k = .conditional ∧ pos = .slot 2 ∧ ∃ p, c = .lambda p

/-- Whether what is in the first slot is written to. -/
def writes : NodeKind → Bool
  | assign _ => true
  | unary op => op.writesOperand
  | _ => false

/-- What can be written to: a variable, a field or an element of an array. -/
def isVariable : NodeKind → Bool
  | nameExpr _ | fieldAccess _ | arrayAccess => true
  | _ => false

/-- An expression that is nothing to be written to, not even with parentheses around it. -/
def isValue (k : NodeKind) : Bool := k.isExpression && !k.isVariable && k != .paren

variable {k c : NodeKind} {pos : Position}

theorem leastBinding_le (k : NodeKind) (pos : Position) : k.leastBinding pos ≤ 13 := by
  unfold leastBinding
  split
  case h_1 op => cases op <;> decide
  case h_2 op => cases op <;> decide
  case h_4 op => cases op <;> decide
  all_goals decide

theorem binding_le (k : NodeKind) : k.binding ≤ 13 := by
  unfold binding
  split
  case h_4 op => cases op <;> decide
  case h_6 op => cases op <;> decide
  all_goals decide

/-- What needs no parentheses anywhere can stand at every place. -/
theorem bears_of_binding (h : c.binding = 13) : k.Bears pos c := .inl (h ▸ leastBinding_le k pos)

@[simp] theorem bears_list (i : Nat) : k.Bears (.list i) c := by
  refine .inl ?_
  rw [show k.leastBinding (.list i) = 0 by cases k <;> rfl]
  exact Nat.zero_le _

/-- A choice can end with anything but an assignment. -/
theorem bears_last (h : ∀ op, c ≠ .assign op) : conditional.Bears (.slot 2) c := by
  cases c with
  | assign op => exact absurd rfl (h op)
  | lambda p => exact .inr ⟨rfl, rfl, p, rfl⟩
  | binary op => exact .inl (Nat.le_add_left 1 _)
  | unary op => cases op <;> exact .inl (Nat.le_of_ble_eq_true rfl)
  | _ => exact .inl (Nat.le_of_ble_eq_true rfl)

/-- Where nothing is written to, an expression can stand if it needs no parentheses. -/
theorem bears_of_needsParensIn (h : needsParensIn k pos c.binding = false)
    (hw : ¬ (k.writes = true ∧ pos = .slot 0)) : k.Bears pos c := by
  refine .inl ?_
  unfold leastBinding
  split
  case h_4 op =>
    have hop : op.isPostfix = false := by
      cases op <;> first | rfl | exact absurd ⟨rfl, rfl⟩ hw
    simp only [needsParensIn, decide_eq_false_iff_not, Nat.not_lt] at h
    rwa [binding, hop]
  case h_12 op => exact absurd ⟨rfl, rfl⟩ hw
  all_goals
    first
    | exact Nat.zero_le _
    | simp only [needsParensIn, decide_eq_false_iff_not, Nat.not_lt, Nat.not_le] at h
      exact h

theorem isValue_iff : k.isValue = true ↔
    k.isExpression = true ∧ k.isVariable = false ∧ k ≠ .paren := by
  simp [isValue, and_assoc]

theorem isExpression_of_isValue (h : k.isValue = true) : k.isExpression = true :=
  (isValue_iff.mp h).1

end NodeKind

namespace Doc

variable {c d x y D : Doc} {pos : Position} {way : List Position} {list : List Doc}

/-- What can be written to, possibly in parentheses. -/
inductive Target : Doc → Prop
  | var {d : Doc} (hk : d.kind.isVariable = true) : Target d
  | paren {d c : Doc} (hk : d.kind = .paren) (hc : d.child? (.slot 0) = some c) (h : Target c) : Target d

/-- Every child can stand at its place without parentheses. -/
def Grouped (d : Doc) : Prop := ∀ pos c, d.child? pos = some c → d.kind.Bears pos c.kind

/-- If the document writes to its first child, that can be written to. -/
def Aimed (d : Doc) : Prop := d.kind.writes = true → ∀ c, d.child? (.slot 0) = some c → c.Target

/-- A document that is grouped as its text says, and writes only to what can be written to. -/
def Clear (d : Doc) : Prop := d.All fun x => x.Grouped ∧ x.Aimed

theorem not_target (hv : d.kind.isVariable = false) (hp : d.kind ≠ .paren) : ¬ d.Target := by
  rintro (hk | ⟨hk, -, -⟩)
  · rw [hv] at hk
    cases hk
  · exact hp hk

theorem Target.setChild (h : d.Target) (hc : d.child? pos = some c) (hx : c.Target → x.Target) :
    (d.setChild x pos).Target := by
  cases h with
  | var hk => exact .var (by rwa [kind_setChild])
  | @paren _ b hk hb h =>
    by_cases hpos : pos = .slot 0
    · subst hpos
      cases hc.symm.trans hb
      exact .paren (by rwa [kind_setChild]) (child?_setChild hc) (hx h)
    · refine .paren (by rwa [kind_setChild]) ?_ h
      rwa [child?_setChild_of_ne (Ne.symm hpos)]

theorem Target.put (h : d.Target) (hw : d.at? way = some x) (hy : x.Target → y.Target) :
    (d.put way y).Target := by
  induction way generalizing d with
  | nil =>
    cases hw
    exact hy h
  | cons pos way ih =>
    obtain ⟨c, hc, hw⟩ := Option.bind_eq_some_iff.mp hw
    rw [put_cons hc]
    exact h.setChild hc fun h => ih h hw

namespace Clear

theorem setChild (h : d.Clear) (hc : d.child? pos = some c) (hx : x.Clear)
    (hk : d.kind.Bears pos x.kind) (ht : c.Target → x.Target) : (d.setChild x pos).Clear := by
  refine all_iff.mpr ⟨⟨?_, ?_⟩, ?_⟩
  · intro pos' b hb
    rw [kind_setChild]
    by_cases hp : pos' = pos
    · subst hp
      cases (child?_setChild hc).symm.trans hb
      exact hk
    · rw [child?_setChild_of_ne hp] at hb
      exact h.self.1 pos' b hb
  · intro hw b hb
    rw [kind_setChild] at hw
    by_cases hp : .slot 0 = pos
    · subst hp
      cases (child?_setChild hc).symm.trans hb
      exact ht (h.self.2 hw c hc)
    · rw [child?_setChild_of_ne hp] at hb
      exact h.self.2 hw b hb
  · intro pos' b hb
    by_cases hp : pos' = pos
    · subst hp
      cases (child?_setChild hc).symm.trans hb
      exact hx
    · rw [child?_setChild_of_ne hp] at hb
      exact h.child hb

/-- A part is exchanged for one of the same kind. -/
theorem put (h : d.Clear) (hw : d.at? way = some x) (hy : y.Clear) (hk : y.kind = x.kind)
    (ht : x.Target → y.Target) : (d.put way y).Clear := by
  induction way generalizing d with
  | nil => exact hy
  | cons pos way ih =>
    obtain ⟨c, hc, hw⟩ := Option.bind_eq_some_iff.mp hw
    rw [put_cons hc]
    refine h.setChild hc (ih (h.child hc) hw) ?_ fun hct => hct.put hw ht
    rw [kind_put hw hk]
    exact h.self.1 pos c hc

/-- A node whose children are clear and can stand at their places, and which writes to nothing. -/
theorem of_children (hw : d.kind.writes = false)
    (hs : ∀ i c, d.child? (.slot i) = some c → c.Clear ∧ d.kind.Bears (.slot i) c.kind)
    (hl : ∀ c ∈ d.list, c.Clear) : d.Clear := by
  refine all_iff.mpr ⟨⟨?_, ?_⟩, ?_⟩
  · intro pos c hc
    cases pos with
    | slot i => exact (hs i c hc).2
    | list i => exact NodeKind.bears_list i
  · intro hw'
    rw [hw] at hw'
    cases hw'
  · intro pos c hc
    cases pos with
    | slot i => exact (hs i c hc).1
    | list i => exact hl c (List.mem_of_getElem? hc)

end Clear

end Doc

/-- Whether documents can stand in the slots of a kind one after the other, from a slot on. -/
def NodeKind.BearsFrom (k : NodeKind) : Nat → List Doc → Prop
  | _, [] => True
  | i, d :: slots => k.Bears (.slot i) d.kind ∧ k.BearsFrom (i + 1) slots

theorem NodeKind.BearsFrom.bears {k : NodeKind} {i j : Nat} {slots : List Doc} {d : Doc}
    (h : k.BearsFrom i slots) (hd : slots[j]? = some d) : k.Bears (.slot (i + j)) d.kind := by
  induction slots generalizing i j with
  | nil => cases hd
  | cons e slots ih =>
    cases j with
    | zero =>
      cases hd
      exact h.1
    | succ j =>
      have hj := ih (j := j) h.2 hd
      rwa [Nat.add_assoc, Nat.add_comm 1] at hj

namespace Doc

variable {d : Doc} {list : List Doc}

theorem Target.withList (h : d.Target) : (d.withList list).Target := by
  cases h with
  | var hk => exact .var hk
  | paren hk hc h => exact .paren hk hc h

theorem Clear.withList (h : d.Clear) (hl : ∀ x ∈ list, x.Clear) : (d.withList list).Clear := by
  refine all_iff.mpr ⟨⟨?_, h.self.2⟩, ?_⟩
  · intro pos c hc
    cases pos with
    | slot i => exact h.self.1 (.slot i) c hc
    | list i => exact NodeKind.bears_list i
  · intro pos c hc
    cases pos with
    | slot i => exact All.child h (show d.child? (.slot i) = some c from hc)
    | list i => exact hl c (List.mem_of_getElem? hc)

end Doc

namespace SyntaxTree

variable {t u : SyntaxTree} {m n p : NodeId} {pos : Position} {k : NodeKind} {D : Doc} {s : Span}

/-- The document of the root is clear. -/
def Clear (t : SyntaxTree) : Prop := ∀ d, t.rootDoc? = some d → d.Clear

/-- Spans that come of those in the tree. -/
inductive Spanned (t : SyntaxTree) : Span → Prop
  | own {n : NodeId} (hn : t.isAttached n = true) : Spanned t (t.span n)
  | cover {a b : Span} (ha : Spanned t a) (hb : Spanned t b) : Spanned t (a.cover b)

/-- All spans of the document come of those in the tree. -/
def Spans (t : SyntaxTree) (D : Doc) : Prop := D.All fun x => t.Spanned x.span

/-- A document that a clear tree can have in the place of a node and be clear. -/
structure Suits (t : SyntaxTree) (n : NodeId) (D : Doc) : Prop where
  clear : t.Clear → D.Clear
  spans : t.Spans D
  bears : t.Clear → ∀ p pos, t.parent? n = some p → (t.node p).at? pos = some n →
    (t.kind p).Bears pos D.kind
  target : (t.doc n).Target → D.Target

theorem Linked.not_target_of_isValue (ht : t.Linked) (h : (t.kind n).isValue = true) :
    ¬ (t.doc n).Target := by
  obtain ⟨-, hv, hp⟩ := NodeKind.isValue_iff.mp h
  exact Doc.not_target (by rwa [ht.kind_doc]) (by rwa [ht.kind_doc])

section

variable (ht : t.Linked) (hn : t.isAttached n = true)
include ht hn

theorem Clear.doc (h : t.Clear) : (t.doc n).Clear := by
  obtain ⟨r, hr, hnr⟩ := ht.isAttached_iff.mp hn
  obtain ⟨way, hw⟩ := exists_at? hnr
  exact (h _ (congrArg (Option.map t.doc) hr)).at? (by rw [ht.at?_doc, hw, Option.map_some])

/-- Every child can stand at its place. -/
theorem Clear.bears (h : t.Clear) (hm : (t.node n).at? pos = some m) : (t.kind n).Bears pos (t.kind m) := by
  have hb := (h.doc ht hn).self.1 pos (t.doc m) (by rw [ht.child?_doc, hm, Option.map_some])
  rwa [ht.kind_doc, ht.kind_doc] at hb

/-- The receiver of a call needs no parentheses anywhere. -/
theorem Clear.binding_of_receiver {name : String} (h : t.Clear) (hk : t.kind n = .methodCall name)
    (hm : t.slot? n 0 = some m) : (t.doc m).kind.binding = 13 := by
  have hb := h.bears ht hn (show (t.node n).at? (.slot 0) = some m from hm)
  rw [hk] at hb
  rcases hb with hb | ⟨hc, -⟩
  · rw [ht.kind_doc]
    exact le_antisymm (NodeKind.binding_le _) hb
  · cases hc

/-- What is written to can be. -/
theorem Clear.target (h : t.Clear) (hw : (t.kind n).writes = true) (hm : t.slot? n 0 = some m) :
    (t.doc m).Target := by
  refine (h.doc ht hn).self.2 (by rwa [ht.kind_doc]) (t.doc m) ?_
  rw [ht.child?_doc, show (t.node n).at? (.slot 0) = some m from hm, Option.map_some]

theorem Linked.spans_doc : t.Spans (t.doc n) := by
  refine (ht.forall_parts (P := fun x => t.Spanned x.span)).mpr fun m hm => ?_
  rw [ht.span_doc]
  exact .own (ht.attached_of_within hn hm)

/-- Other list children can be given to a node. -/
theorem Linked.suits_withList {list : List Doc} (hc : t.Clear → ∀ x ∈ list, x.Clear)
    (hs : ∀ x ∈ list, t.Spans x) : t.Suits n ((t.doc n).withList list) where
  clear h := (h.doc ht hn).withList (hc h)
  spans := by
    refine Doc.all_node (ht.spans_doc hn).self (fun c hc => ?_) hs
    obtain ⟨pos, hpos⟩ := Doc.exists_child?.mpr (.inl hc)
    exact (ht.spans_doc hn).child hpos
  bears h p pos hp hat := by
    rw [Doc.withList, Doc.kind, ht.kind_doc]
    exact h.bears ht (ht.attached_parent hn hp) hat
  target h := h.withList

/-- A value is at no place that is written to, so it can stand wherever it needs no parentheses. -/
theorem Clear.bears_of_needsParens (h : t.Clear) (hv : (t.kind n).isValue = true)
    (hk : t.needsParens n k = false) (hp : t.parent? n = some p) (hat : (t.node p).at? pos = some n) :
    (t.kind p).Bears pos k := by
  have hpos : t.position? n = some pos := (ht.position?_eq_some hp).mpr hat
  rw [needsParens, hp, hpos] at hk
  refine NodeKind.bears_of_needsParensIn hk ?_
  rintro ⟨hw, rfl⟩
  exact ht.not_target_of_isValue hv (h.target ht (ht.attached_parent hn hp) hw hat)

end

namespace Becomes

variable (hb : t.Becomes n D u) (ht : t.Linked) (hn : t.isAttached n = true) (hs : t.Suits n D)
include hb ht hn hs

theorem clear (h : t.Clear) : u.Clear := by
  obtain ⟨r, hr, hnr⟩ := ht.isAttached_iff.mp hn
  obtain ⟨way, hw⟩ := exists_at? hnr
  have hroot : (t.doc r).Clear := h _ (congrArg (Option.map t.doc) hr)
  intro e he
  rw [hb.rootDoc hr hw, Option.some.injEq] at he
  subst he
  rcases ht.attached_cases hn with ⟨hrn, -⟩ | ⟨p, hp, -, hpa⟩
  · obtain rfl : r = n := Option.some.inj (hr.symm.trans hrn)
    obtain rfl := ht.at?_unique (ht.root hr).1 hw (show t.at? r [] = some r from rfl)
    exact hs.clear h
  · obtain ⟨pos, -, hpos⟩ := ht.exists_position hp
    obtain ⟨front, hf, rfl⟩ := ht.way_parent hr hpa hpos hw
    have hpd : (t.doc r).at? front = some (t.doc p) := by rw [ht.at?_doc, hf, Option.map_some]
    have hc : (t.doc p).child? pos = some (t.doc n) := by rw [ht.child?_doc, hpos, Option.map_some]
    rw [Doc.put_append hpd, Doc.put_cons hc, Doc.put_nil]
    refine hroot.put hpd ((h.doc ht hpa).setChild hc (hs.clear h) ?_ hs.target) Doc.kind_setChild
      fun hpt => hpt.setChild hc hs.target
    rw [ht.kind_doc]
    exact hs.bears h p pos hp hpos

theorem spanned (h : u.Spanned s) : t.Spanned s := by
  obtain ⟨r, hr, hnr⟩ := ht.isAttached_iff.mp hn
  obtain ⟨way, hw⟩ := exists_at? hnr
  have hroot := hb.rootDoc hr hw
  have hall : t.Spans ((t.doc r).put way D) :=
    (ht.spans_doc (ht.attached_root hr)).put (fun hc => by rw [Doc.span_setChild]; exact hc) hs.spans
  induction h with
  | @own m hm =>
    obtain ⟨q, hq, hmq⟩ := hb.linked.isAttached_iff.mp hm
    obtain ⟨later, hl⟩ := exists_at? hmq
    have he : u.doc q = (t.doc r).put way D :=
      Option.some.inj ((congrArg (Option.map u.doc) hq).symm.trans hroot)
    rw [← hb.linked.span_doc]
    exact hall later (u.doc m) (by rw [← he, hb.linked.at?_doc, hl, Option.map_some])
  | cover _ _ iha ihb => exact .cover iha ihb

end Becomes

end SyntaxTree

end TreeTidy
