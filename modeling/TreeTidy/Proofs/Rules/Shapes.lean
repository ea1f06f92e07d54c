import TreeTidy.Proofs.Rules.Weight
import TreeTidy.Rules.Shape
/-!
What the shapes that rules look for say about a tree: which expressions are where below a node, and
what the node weighs for it.
-/
namespace TreeTidy

namespace NodeKind

variable {k : NodeKind}

theorem two_le_numeralWeight (text : String) : 2 ≤ numeralWeight text := by
  unfold numeralWeight
  split <;> split <;> decide

/-- Literals aside, only parentheses are lighter than a call. -/
theorem four_le_weight (hk : k.isExpression = true) (hp : k ≠ .paren)
    (hl : ∀ sort text, k ≠ .literal sort text) : 4 ≤ k.weight := by
  cases k with
  | literal sort text => exact absurd rfl (hl sort text)
  | paren => exact absurd rfl hp
  | methodCall name | typeName name =>
    simp only [weight]
    split <;> decide
  | lambda parenthesized => cases parenthesized <;> decide
  | newObject => decide
  | _ => first | exact le_refl 4 | exact Bool.noConfusion hk

theorem four_le_call (name : String) : 4 ≤ weight (.methodCall name) := four_le_weight rfl nofun nofun

/-- Of expressions, only parentheses and `null` weigh less than other literals. -/
theorem two_le_weight (hk : k.isExpression = true) (hp : k ≠ .paren)
    (hn : ∀ text, k ≠ .literal .null text) : 2 ≤ k.weight := by
  by_cases hl : ∃ sort text, k = .literal sort text
  · obtain ⟨sort, text, rfl⟩ := hl
    cases sort with
    | null => exact absurd rfl (hn text)
    | int => exact two_le_numeralWeight text
    | long => exact two_le_numeralWeight text
    | _ => exact Nat.le_of_ble_eq_true rfl
  · have h := four_le_weight hk hp fun sort text he => hl ⟨sort, text, he⟩
    omega

end NodeKind

namespace SyntaxTree

variable {t : SyntaxTree} {a b m n r : NodeId} {i : Nat} {name : String} {f : Nat}

/-- What a node weighs with all below it. -/
def weight (t : SyntaxTree) (n : NodeId) : Nat := (t.doc n).weight

@[simp] theorem weight_doc : (t.doc n).weight = t.weight n := rfl

/-- What the child in a slot weighs, if there is one. -/
def slotWeight (t : SyntaxTree) (n : NodeId) (i : Nat) : Nat := ((t.slot? n i).map t.weight).getD 0

theorem slotWeight_some (h : t.slot? n i = some a) : t.slotWeight n i = t.weight a := by
  rw [slotWeight, h, Option.map_some, Option.getD_some]

theorem Linked.slot?_doc (ht : t.Linked) (n : NodeId) (i : Nat) :
    (t.doc n).slot? i = (t.slot? n i).map t.doc := ht.child?_doc n (.slot i)

theorem child_slot (h : t.slot? n i = some a) : t.Child a n :=
  Node.mem_children_iff.mpr ⟨.slot i, h⟩

theorem child_list (h : a ∈ t.list n) : t.Child a n := List.mem_append_right _ h

section

variable (ht : t.Linked) (hl : t.Laid) (hn : t.isAttached n = true)
include ht hl hn

theorem Laid.fits : (t.kind n).Fits ((t.node n).slots.map (Option.map t.kind))
    ((t.node n).list.map t.kind) := ht.fits_doc_iff.mp (hl n hn)

theorem Laid.slots_length : (t.node n).slots.length = (t.kind n).layout.slots.length := by
  simpa using (hl.fits ht hn).slots.length_eq

/-- Slots that the layout does not have hold nothing. -/
theorem Laid.slotWeight_eq_zero (hi : (t.kind n).layout.slots.length ≤ i) : t.slotWeight n i = 0 := by
  rw [slotWeight, slot?, List.getElem?_eq_none (by rwa [hl.slots_length ht hn])]
  rfl

theorem Laid.list_eq_nil (h : (t.kind n).layout.list = none) : t.list n = [] :=
  List.map_eq_nil_iff.mp ((hl.fits ht hn).unlisted h)

/-- A slot that has to be filled is. -/
theorem Laid.slot_isSome {c : SlotClass} (h : (t.kind n).layout.slots[i]? = some (.must c)) :
    ∃ a, t.slot? n i = some a := by
  obtain ⟨hi, hs⟩ := List.getElem?_eq_some_iff.mp h
  have hlt : i < (t.node n).slots.length := by rwa [hl.slots_length ht hn]
  have hf := (List.forall₂_iff_get.mp (hl.fits ht hn).slots).2 i (by simpa using hlt) hi
  simp only [List.get_eq_getElem, List.getElem_map, hs] at hf
  rw [slot?, List.getElem?_eq_getElem hlt]
  cases ho : (t.node n).slots[i] with
  | some a => exact ⟨a, rfl⟩
  | none =>
    rw [ho] at hf
    cases hf

theorem Laid.doc_slots_length : (t.doc n).slots.length ≤ 3 := by
  rw [ht.doc_eq]
  simp only [Doc.slots, List.length_map, hl.slots_length ht hn]
  exact NodeKind.slots_length_le _

theorem Laid.weight_eq : t.weight n = (t.kind n).weight +
    ((t.kind n).slotFactor 0 * t.slotWeight n 0 + (t.kind n).slotFactor 1 * t.slotWeight n 1 +
      (t.kind n).slotFactor 2 * t.slotWeight n 2) +
    (t.kind n).listFactor * ((t.list n).map t.weight).sum := by
  have hs : ∀ i, (t.doc n).slotTotal .weights i = t.slotWeight n i := by
    intro i
    rw [Doc.slotTotal, ht.slot?_doc, slotWeight, Option.map_map]
    rfl
  have hlist : (t.doc n).list = (t.list n).map t.doc := by
    rw [ht.doc_eq]
    rfl
  rw [weight, Doc.weight, Doc.total_eq (hl.doc_slots_length ht hn), hs, hs, hs, Doc.totalList_eq,
    hlist, ht.kind_doc, List.map_map]
  rfl

theorem Laid.count_lt (h : t.slot? n 0 = some a) : (t.doc a).count < (t.doc n).count := by
  have hs : (t.doc n).slotTotal .counting 0 = (t.doc a).count := by
    rw [Doc.slotTotal, ht.slot?_doc, h]
    rfl
  have he : (t.doc n).count = 1 + (1 * (t.doc n).slotTotal .counting 0 + 1 * _ + 1 * _) + 1 * _ :=
    Doc.total_eq (hl.doc_slots_length ht hn)
  omega

theorem Laid.weight_paren (hk : t.kind n = .paren) (ha : t.slot? n 0 = some a) :
    t.weight n = t.weight a := by
  have h1 := hl.slotWeight_eq_zero ht hn (i := 1) (by rw [hk]; exact le_refl 1)
  have h2 := hl.slotWeight_eq_zero ht hn (i := 2) (by rw [hk]; exact Nat.le_succ 1)
  rw [hl.weight_eq ht hn, hk, slotWeight_some ha, h1, h2, hl.list_eq_nil ht hn (by rw [hk]; rfl)]
  simp [NodeKind.weight, NodeKind.slotFactor]

/-- Every child counts once at least. -/
theorem Laid.weight_le : (t.kind n).weight + (t.slotWeight n 0 + t.slotWeight n 1 + t.slotWeight n 2) +
    ((t.list n).map t.weight).sum ≤ t.weight n := by
  have h := fun i => Nat.le_mul_of_pos_left (t.slotWeight n i) ((t.kind n).slotFactor_pos i)
  have hs := Nat.le_mul_of_pos_left ((t.list n).map t.weight).sum (t.kind n).listFactor_pos
  rw [hl.weight_eq ht hn]
  exact Nat.add_le_add (Nat.add_le_add_left
    (Nat.add_le_add (Nat.add_le_add (h 0) (h 1)) (h 2)) _) hs

theorem Laid.kind_weight_le : (t.kind n).weight ≤ t.weight n := by
  rw [hl.weight_eq ht hn, Nat.add_assoc]
  exact Nat.le_add_right _ _

/-- A node of a kind without children weighs what the kind does. -/
theorem Laid.weight_leaf (h : (t.kind n).layout = .fixed []) : t.weight n = (t.kind n).weight := by
  have hz : ∀ i, t.slotWeight n i = 0 := by
    intro i
    exact hl.slotWeight_eq_zero ht hn (by rw [h]; exact Nat.zero_le i)
  rw [hl.weight_eq ht hn, hl.list_eq_nil ht hn (by rw [h]; rfl), hz, hz, hz]
  simp

end

/-- An expression below a node. -/
structure SubExpr (t : SyntaxTree) (n a : NodeId) : Prop where
  below : t.Below a n
  expr : (t.kind a).isExpression = true

namespace SubExpr

variable (h : t.SubExpr n a) (ht : t.Linked) (hn : t.isAttached n = true)
include h ht hn

theorem attached : t.isAttached a = true := ht.attached_of_within hn h.below.to_reflTransGen

theorem alive : t.isAlive a = true := attached_alive (h.attached ht hn)

theorem doc (hl : t.Laid) : (t.doc a).Expr t :=
  ⟨hl.proper ht (h.attached ht hn), by rw [ht.kind_doc, h.expr]⟩

end SubExpr

section

variable (ht : t.Linked) (hl : t.Laid) (hn : t.isAttached n = true)
include ht hl hn

/-- What is in a slot for an expression, of a node or of one below it, is an expression below. -/
theorem Laid.subExpr_slot (hm : t.Within m n) (hk : (t.kind m).admittedAt (.slot i) = some .expr)
    (h : t.slot? m i = some a) : t.SubExpr n a := by
  have hc := child_slot h
  have ha := hl.admits_slot ht (ht.attached_of_within hn hm) h
  rw [NodeKind.admits, hk] at ha
  exact ⟨.head' hc hm, ha⟩

theorem Laid.subExpr_list (hm : t.Within m n) (hk : (t.kind m).admittedAt (.list 0) = some .expr)
    (h : a ∈ t.list m) : t.SubExpr n a := by
  have ha := hl.admits_list ht (ht.attached_of_within hn hm) h
  rw [NodeKind.admits, hk] at ha
  exact ⟨.head' (child_list h) hm, ha⟩

end

section Parentheses

variable (ht : t.Linked) (hl : t.Laid) (ha : t.isAttached a = true)
include ht hl ha

theorem Laid.stripWithin (hf : Linked.depth t a < f) : t.Within (t.stripWithin f a) a ∧
    ((t.kind a).isExpression = true → (t.kind (t.stripWithin f a)).isExpression = true) ∧
    t.weight (t.stripWithin f a) = t.weight a ∧ t.kind (t.stripWithin f a) ≠ .paren := by
  induction f generalizing a with
  | zero => exact absurd hf (Nat.not_lt_zero _)
  | succ f ih =>
    by_cases hk : t.kind a = .paren
    · obtain ⟨b, hb⟩ := hl.slot_isSome ht ha (i := 0) (c := .expr) (by rw [hk]; rfl)
      have hba := child_slot hb
      have hsub := hl.subExpr_slot ht ha .refl (i := 0) (by rw [hk]; rfl) hb
      have hd := ht.depth_lt_of_child hba
      obtain ⟨hw, hx, he, hp⟩ := ih (ht.attached_child ha hba) (by omega)
      have hs : t.stripWithin (f + 1) a = t.stripWithin f b := by
        rw [SyntaxTree.stripWithin, hk, hb]
      rw [hs]
      exact ⟨hw.tail hba, fun _ => hx hsub.expr, he.trans (hl.weight_paren ht ha hk hb).symm, hp⟩
    · have hs : t.stripWithin (f + 1) a = a := by
        rw [SyntaxTree.stripWithin]
        split
        next h _ => exact absurd h hk
        · rfl
      rw [hs]
      exact ⟨.refl, fun h => h, rfl, hk⟩

theorem Laid.stripParens : t.Within (t.stripParens a) a ∧
    ((t.kind a).isExpression = true → (t.kind (t.stripParens a)).isExpression = true) ∧
    t.weight (t.stripParens a) = t.weight a ∧ t.kind (t.stripParens a) ≠ .paren :=
  hl.stripWithin ht ha (ht.depth_lt_size (lt_of_alive (attached_alive ha)))

theorem Laid.weight_stripParens : t.weight (t.stripParens a) = t.weight a :=
  (hl.stripParens ht ha).2.2.1

end Parentheses

theorem SubExpr.stripParens (h : t.SubExpr n a) (ht : t.Linked) (hl : t.Laid)
    (hn : t.isAttached n = true) : t.SubExpr n (t.stripParens a) := by
  obtain ⟨hw, hx, -, -⟩ := hl.stripParens ht (h.attached ht hn)
  exact ⟨.trans_right hw h.below, hx h.expr⟩

section Recognized

theorem call?_eq_some {c : Call} : t.call? n = some c ↔
    t.kind n = .methodCall c.name ∧ t.slot? n 0 = c.receiver ∧ t.list n = c.args := by
  unfold call?
  constructor
  · intro h
    split at h
    next hk =>
      cases h
      exact ⟨hk, rfl, rfl⟩
    · cases h
  · rintro ⟨hk, hr, ha⟩
    rw [hk, hr, ha]

theorem isOf_iff {c : Call} {k : Nat} : c.isOf name k = true ↔
    c.name = name ∧ c.args.length = k := by
  simp [Call.isOf]

theorem nullaryCall?_eq_some : t.nullaryCall? n name = some r ↔
    t.kind n = .methodCall name ∧ t.slot? n 0 = some r ∧ t.list n = [] := by
  unfold nullaryCall?
  constructor
  · intro h
    split at h
    next c hc =>
      split at h
      next hof =>
        obtain ⟨hk, hr, ha⟩ := call?_eq_some.mp hc
        obtain ⟨rfl, hlen⟩ := isOf_iff.mp hof
        exact ⟨hk, hr.trans h, ha.trans (List.length_eq_zero_iff.mp hlen)⟩
      · cases h
    · cases h
  · rintro ⟨hk, hr, ha⟩
    rw [call?_eq_some (c := ⟨name, some r, []⟩) |>.mpr ⟨hk, hr, ha⟩]
    simp [Call.isOf]

theorem booleanLiteral?_eq_some {v : Bool} (h : t.booleanLiteral? n = some v) :
    ∃ text, t.kind n = .literal .boolean text := by
  unfold booleanLiteral? at h
  split at h
  next text hk => exact ⟨text, hk⟩
  · cases h

theorem isNullLiteral_iff : t.isNullLiteral n = true ↔ ∃ text, t.kind n = .literal .null text := by
  unfold isNullLiteral
  split
  next text hk => simp [hk]
  next h => simpa using h

theorem stringLiteral?_eq_some {text : String} :
    t.stringLiteral? n = some text ↔ t.kind n = .literal .string text := by
  unfold stringLiteral?
  split
  next hk => simp [hk]
  next h => simpa using h text

theorem intLiteral?_eq_some {v : Int} (h : t.intLiteral? n = some v) :
    ∃ text, t.kind n = .literal .int text := by
  unfold intLiteral? at h
  split at h
  next text hk => exact ⟨text, hk⟩
  · cases h

theorem isLiteral_iff : t.isLiteral n = true ↔ ∃ sort text, t.kind n = .literal sort text := by
  unfold isLiteral
  split
  next sort text hk => simp [hk]
  next h => simpa using h

theorem negatedOperand?_eq_some : t.negatedOperand? n = some a ↔
    t.kind n = .unary .not ∧ ∃ b, t.slot? n 0 = some b ∧ t.stripParens b = a := by
  unfold negatedOperand?
  split
  next hk => simp [hk, Option.map_eq_some_iff]
  next h => simpa using fun hk => absurd hk h

end Recognized

end SyntaxTree

end TreeTidy
