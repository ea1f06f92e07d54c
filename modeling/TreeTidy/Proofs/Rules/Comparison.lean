import TreeTidy.Proofs.Rules.Descends
import TreeTidy.Rules.Comparison
/-! The rules on comparisons lead downwards: first those on tests for equality. -/
namespace TreeTidy.Rules

open SyntaxTree Draft

variable {t : SyntaxTree} {a b n r : NodeId} {name : String}

section

variable (ht : t.Linked) (hl : t.Laid) (hn : t.isAttached n = true)
include ht hl hn

/-- Both operands of an operator are expressions below it. -/
theorem operands_of_binary {op : BinaryOp} (hk : t.kind n = .binary op) (ha : t.slot? n 0 = some a)
    (hb : t.slot? n 1 = some b) : t.SubExpr n a ∧ t.SubExpr n b :=
  ⟨hl.subExpr_slot ht hn .refl (i := 0) (by rw [hk]; rfl) ha,
    hl.subExpr_slot ht hn .refl (i := 1) (by rw [hk]; rfl) hb⟩

/-- What is a literal once its parentheses are gone weighs what the literal does. -/
theorem weight_of_literal {sort : LiteralSort} {text : String}
    (hk : t.kind (t.stripParens n) = .literal sort text) :
    t.weight n = NodeKind.weight (.literal sort text) := by
  have ha := ht.attached_of_within hn (hl.stripParens ht hn).1
  rw [← hl.weight_stripParens ht hn, hl.weight_leaf ht ha (by rw [hk]; rfl), hk]

/-- An expression that is not `null` in parentheses weighs more than `null`. -/
theorem two_le_of_not_null (hx : (t.kind n).isExpression = true)
    (h : t.isNullLiteral (t.stripParens n) = false) : 2 ≤ t.weight n := by
  obtain ⟨hw, he, hs, hp⟩ := hl.stripParens ht hn
  have hk := hl.kind_weight_le ht (ht.attached_of_within hn hw)
  have h2 := NodeKind.two_le_weight (he hx) hp fun text ht' => by
    rw [isNullLiteral_iff.mpr ⟨text, ht'⟩] at h
    cases h
  omega

/-- An expression that is no literal in parentheses weighs more than all short literals. -/
theorem four_le_of_not_literal (hx : (t.kind n).isExpression = true)
    (h : t.isLiteral (t.stripParens n) = false) : 4 ≤ t.weight n := by
  obtain ⟨hw, he, hs, hp⟩ := hl.stripParens ht hn
  have hk := hl.kind_weight_le ht (ht.attached_of_within hn hw)
  have h4 := NodeKind.four_le_weight (he hx) hp fun sort text ht' => by
    rw [isLiteral_iff.mpr ⟨sort, text, ht'⟩] at h
    cases h
  omega

end

/-- The literal of a comparison is one of the operands, and the other one is compared. -/
theorem literalComparison?_cases {literal : Bool} {operand : NodeId}
    (h : literalComparison? t a b = some (operand, literal)) :
    (operand = a ∧ t.booleanLiteral? (t.stripParens b) = some literal) ∨
      operand = b ∧ t.booleanLiteral? (t.stripParens a) = some literal := by
  unfold literalComparison? at h
  split at h
  next hb =>
    cases h
    exact .inl ⟨rfl, hb⟩
  next ha hb =>
    cases h
    exact .inr ⟨rfl, ha⟩
  · cases h

section

variable {v : View} {p : Plan} (ht : v.tree.Linked) (hl : v.tree.Laid)
  (hn : v.tree.isAttached n = true)
include ht hl hn

theorem booleanLiteralComparison_puts (h : booleanLiteralComparison.planAt v n = some p) :
    ∃ op a b operand literal, v.tree.kind n = .binary op ∧ op.isEquality = true ∧
      v.tree.slot? n 0 = some a ∧ v.tree.slot? n 1 = some b ∧
      literalComparison? v.tree a b = some (operand, literal) ∧
      v.primitive? operand = some .boolean ∧
      p.Puts v.tree n ((if (op == .eq) == literal then v.tree.doc operand
        else (v.tree.doc operand).negated).placedAt v.tree n) := by
  simp only [booleanLiteralComparison.planAt] at h
  split at h
  next op hk =>
    split at h
    · cases h
    next hop =>
    simp only [Option.bind_eq_bind, Option.bind_eq_some_iff, Prod.exists] at h
    obtain ⟨a, ha, b, hb, operand, literal, hc, h⟩ := h
    obtain ⟨hA, hB⟩ := operands_of_binary ht hl hn hk ha hb
    have hx : (v.tree.kind n).isValue = true := by rw [hk]; rfl
    have hs : v.tree.SubExpr n operand := by
      rcases literalComparison?_cases hc with ⟨rfl, -⟩ | ⟨rfl, -⟩
      · exact hA
      · exact hB
    split at h
    · cases h
    next hprim =>
    refine ⟨op, a, b, operand, literal, hk, by simpa using hop, ha, hb, hc, by simpa using hprim, ?_⟩
    split at h
    next hsame =>
      obtain rfl := Option.some.inj h
      rw [if_pos hsame]
      exact putAt_keep_puts ht hl hn hs hx
    next hsame =>
      obtain rfl := Option.some.inj h
      rw [if_neg hsame]
      have hD := hs.doc ht hn hl
      refine Ends.placed_puts ht hl hn ?_ hD.negated hx
      apply copy_ends ht (hs.alive ht hn)
      intro x
      exact Ends.of_yields (negate_yields x hD) fun negated => putAt_ends n negated hD.negated
  next => cases h

theorem nullLiteralOnRight_puts (h : nullLiteralOnRight.planAt v n = some p) :
    ∃ op a b, v.tree.kind n = .binary op ∧ op.isEquality = true ∧ v.tree.slot? n 0 = some a ∧
      v.tree.slot? n 1 = some b ∧ v.tree.isNullLiteral (v.tree.stripParens a) = true ∧
      v.tree.isNullLiteral (v.tree.stripParens b) = false ∧
      p.Puts v.tree n (((v.tree.doc b).joined op (v.tree.doc a)).placedAt v.tree n) := by
  simp only [nullLiteralOnRight.planAt] at h
  split at h
  next op hk =>
    simp only [Option.bind_eq_bind, Option.bind_eq_some_iff] at h
    obtain ⟨a, ha, b, hb, h⟩ := h
    split at h
    · cases h
    next hc =>
      obtain rfl := Option.some.inj h
      simp only [Bool.or_eq_true, Bool.not_eq_true', not_or, Bool.not_eq_false,
        Bool.not_eq_true] at hc
      obtain ⟨⟨hop, hnull⟩, hother⟩ := hc
      obtain ⟨hA, hB⟩ := operands_of_binary ht hl hn hk ha hb
      have hDA := hA.doc ht hn hl
      have hDB := hB.doc ht hn hl
      have hj := hDB.joined op hDA
      refine ⟨op, a, b, hk, hop, ha, hb, hnull, hother, ?_⟩
      refine Ends.placed_puts ht hl hn ?_ hj (by rw [hk]; rfl)
      apply copyTwo_ends ht (hA.alive ht hn) (hB.alive ht hn)
      intro x y
      refine (Ends.of_yields (join_yields op y x hDB hDA) ?_).perm (.swap _ _ _)
      intro swapped
      exact putAt_ends n swapped hj
  next => cases h

end

theorem booleanLiteralComparison_descends : Descends booleanLiteralComparison.planAt := by
  intro v n p ht hl hn h
  obtain ⟨op, a, b, operand, literal, hk, -, ha, hb, hc, -, hp⟩ :=
    booleanLiteralComparison_puts ht hl hn h
  obtain ⟨hA, hB⟩ := operands_of_binary ht hl hn hk ha hb
  have hx : (v.tree.kind n).isValue = true := by rw [hk]; rfl
  have hw := hl.weight_binary ht hn hk ha hb
  -- whichever operand stays, the negation of it weighs less than the comparison
  have hop : v.tree.SubExpr n operand ∧ 4 + v.tree.weight operand < v.tree.weight n := by
    rcases literalComparison?_cases hc with ⟨rfl, hlit⟩ | ⟨rfl, hlit⟩ <;>
      obtain ⟨text, htext⟩ := booleanLiteral?_eq_some hlit
    · have h2 := weight_of_literal ht hl (hB.attached ht hn) htext
      rw [show NodeKind.weight _ = 2 from rfl] at h2
      exact ⟨hA, by omega⟩
    · have h2 := weight_of_literal ht hl (hA.attached ht hn) htext
      rw [show NodeKind.weight _ = 2 from rfl] at h2
      exact ⟨hB, by omega⟩
  obtain ⟨hs, hlt⟩ := hop
  have hD := hs.doc ht hn hl
  split at hp
  · refine hp.placed_rewrites ht hl hn hD hx ?_
    rw [weight_doc]
    omega
  · refine hp.placed_rewrites ht hl hn hD.negated hx ?_
    rwa [Doc.weight_negated, weight_doc]

theorem nullLiteralOnRight_descends : Descends nullLiteralOnRight.planAt := by
  intro v n p ht hl hn h
  obtain ⟨op, a, b, hk, -, ha, hb, hnull, hother, hp⟩ := nullLiteralOnRight_puts ht hl hn h
  obtain ⟨hA, hB⟩ := operands_of_binary ht hl hn hk ha hb
  have hw := hl.weight_binary ht hn hk ha hb
  obtain ⟨text, htext⟩ := isNullLiteral_iff.mp hnull
  have h1 := weight_of_literal ht hl (hA.attached ht hn) htext
  rw [show NodeKind.weight _ = 1 from rfl] at h1
  have h2 := two_le_of_not_null ht hl (hB.attached ht hn) hB.expr hother
  refine hp.placed_rewrites ht hl hn ((hB.doc ht hn hl).joined op (hA.doc ht hn hl)) (by rw [hk]; rfl) ?_
  rw [Doc.weight_joined, weight_doc, weight_doc]
  omega

theorem literalsFirstInComparisons_descends : Descends literalsFirstInComparisons.planAt := by
  intro v n p ht hl hn h
  simp only [literalsFirstInComparisons.planAt, Option.bind_eq_bind, Option.bind_eq_some_iff] at h
  obtain ⟨c, hc, r, hr, arg, harg, h⟩ := h
  split at h
  · cases h
  next hcond =>
    obtain rfl := Option.some.inj h
    simp only [Bool.or_eq_true, Bool.not_eq_true', not_or, Bool.not_eq_false, Bool.not_eq_true,
      Option.isNone_eq_false_iff, Option.isSome_iff_exists] at hcond
    obtain ⟨⟨⟨hof, text, htext⟩, hlit⟩, -⟩ := hcond
    obtain ⟨hk, hrec, hlist⟩ := call?_eq_some.mp hc
    have hargs : c.args = [arg] := by
      have hlen : c.args.length = 1 := by
        rcases hof with hof | hof <;> exact (isOf_iff.mp hof).2
      obtain ⟨x, hx⟩ := List.length_eq_one_iff.mp hlen
      rw [hx] at harg ⊢
      cases harg
      rfl
    rw [hr] at hrec
    have hx : (v.tree.kind n).isValue = true := by rw [hk]; rfl
    have hR := hl.subExpr_slot ht hn .refl (i := 0) (by rw [hk]; rfl) hrec
    have hA := hl.subExpr_list ht hn .refl (a := arg) (by rw [hk]; rfl) (by simp [hlist, hargs])
    have hL := hA.stripParens ht hl hn
    have hw := hl.weight_call ht hn hk hrec (hlist.trans hargs)
    have h3 := weight_of_literal ht hl (hA.attached ht hn) (stringLiteral?_eq_some.mp htext)
    have hlw := hl.weight_stripParens ht (hA.attached ht hn)
    have h4 := four_le_of_not_literal ht hl (hR.attached ht hn) hR.expr hlit
    have hlk := stringLiteral?_eq_some.mp htext
    have hD := Doc.Expr.call (.own hn) c.name [v.tree.doc r] (hL.doc ht hn hl)
      (fun _ => by rw [ht.kind_doc, hlk]; rfl) (by simpa using hR.doc ht hn hl)
    refine Ends.expr_rewrites ht hl hn ?_ hD rfl hx ?_
    · apply copyTwo_ends ht (hL.alive ht hn) (hR.alive ht hn)
      intro x y
      apply Ends.of_yields (make_yields [(x, _)] [(y, _)] hD.conforms.fits)
      intro flipped
      exact Ends.pure (.replace n) flipped _
    · rw [show NodeKind.weight _ = 3 from rfl] at h3
      simp only [List.map_cons, List.map_nil, List.sum_cons, List.sum_nil] at hw
      simp only [Doc.weight_make, Doc.slotsWeight, NodeKind.slotFactor, NodeKind.listFactor,
        weight_doc, List.map_cons, List.map_nil, List.sum_cons, List.sum_nil]
      omega

theorem staticPair?_eq_some (h : staticPair? t n name = some (r, a, b)) :
    t.kind n = .methodCall name ∧ t.slot? n 0 = some r ∧ t.list n = [a, b] := by
  simp only [staticPair?, Option.bind_eq_bind, Option.bind_eq_some_iff] at h
  obtain ⟨c, hc, r', hr, h⟩ := h
  split at h
  next hname hargs =>
    cases h
    obtain ⟨hk, hrec, hlist⟩ := call?_eq_some.mp hc
    rw [eq_of_beq hname] at hk
    exact ⟨hk, hrec.trans hr, hlist.trans hargs⟩
  · cases h

theorem primitiveObjectsEquals_puts {v : View} {p : Plan} (ht : v.tree.Linked) (hl : v.tree.Laid)
    (hn : v.tree.isAttached n = true) (h : primitiveObjectsEquals.planAt v n = some p) :
    ∃ r a b cls, staticPair? v.tree n "equals" = some (r, a, b) ∧ v.tree.kind r = .typeName cls ∧
      v.namesClass r cls "java.util.Objects" = true ∧ areComparable v a b = true ∧
      p.Puts v.tree n (((v.tree.doc a).joined .eq (v.tree.doc b)).placedAt v.tree n) := by
  simp only [primitiveObjectsEquals.planAt, Option.bind_eq_bind, Option.bind_eq_some_iff,
    Prod.exists] at h
  obtain ⟨r, a, b, hc, h⟩ := h
  split at h
  next cls hcls =>
    split at h
    · cases h
    next hcond =>
      obtain rfl := Option.some.inj h
      simp only [Bool.or_eq_true, Bool.not_eq_true', not_or, Bool.not_eq_false] at hcond
      obtain ⟨hk, hrec, hlist⟩ := staticPair?_eq_some hc
      have hA := hl.subExpr_list ht hn .refl (a := a) (by rw [hk]; rfl) (by simp [hlist])
      have hB := hl.subExpr_list ht hn .refl (a := b) (by rw [hk]; rfl) (by simp [hlist])
      have hDA := hA.doc ht hn hl
      have hDB := hB.doc ht hn hl
      have hj := hDA.joined .eq hDB
      refine ⟨r, a, b, cls, hc, hcls, hcond.1, hcond.2, ?_⟩
      refine Ends.placed_puts ht hl hn ?_ hj (by rw [hk]; rfl)
      apply copyTwo_ends ht (hA.alive ht hn) (hB.alive ht hn)
      intro x y
      exact Ends.of_yields (join_yields .eq x y hDA hDB) fun equal => putAt_ends n equal hj
  next => cases h

theorem primitiveObjectsEquals_descends : Descends primitiveObjectsEquals.planAt := by
  intro v n p ht hl hn h
  obtain ⟨r, a, b, cls, hc, hcls, -, -, hp⟩ := primitiveObjectsEquals_puts ht hl hn h
  obtain ⟨hk, hrec, hlist⟩ := staticPair?_eq_some hc
  have hR := hl.subExpr_slot ht hn .refl (i := 0) (by rw [hk]; rfl) hrec
  have hA := hl.subExpr_list ht hn .refl (a := a) (by rw [hk]; rfl) (by simp [hlist])
  have hB := hl.subExpr_list ht hn .refl (a := b) (by rw [hk]; rfl) (by simp [hlist])
  have hw := hl.weight_call ht hn hk hrec hlist
  have hr4 := hl.kind_weight_le ht (hR.attached ht hn)
  have h4 := NodeKind.four_le_weight hR.expr (by rw [hcls]; nofun) (by rw [hcls]; nofun)
  refine hp.placed_rewrites ht hl hn ((hA.doc ht hn hl).joined .eq (hB.doc ht hn hl))
    (by rw [hk]; rfl) ?_
  simp only [List.map_cons, List.map_nil, List.sum_cons, List.sum_nil] at hw
  rw [Doc.weight_joined, weight_doc, weight_doc]
  omega

end TreeTidy.Rules

/-! The rules that ask for emptiness by name lead downwards: a call takes the place of a test of one. -/
namespace TreeTidy.Rules

open SyntaxTree Draft

variable {t : SyntaxTree} {n r : NodeId} {method : String} {empty : Bool}

/-- A count is held against a numeral, from the left or from the right. -/
theorem emptinessTest?_cases (h : t.emptinessTest? n method = some (r, empty)) :
    ∃ op a b, t.kind n = .binary op ∧ t.slot? n 0 = some a ∧ t.slot? n 1 = some b ∧
      ((t.nullaryCall? (t.stripParens a) method = some r ∧ ∃ bound,
          t.intLiteral? (t.stripParens b) = some bound ∧ emptinessOf op bound = some empty) ∨
        t.nullaryCall? (t.stripParens b) method = some r ∧ ∃ bound flipped,
          t.intLiteral? (t.stripParens a) = some bound ∧ op.flipped? = some flipped ∧
            emptinessOf flipped bound = some empty) := by
  unfold emptinessTest? at h
  split at h
  next op hk =>
    simp only [Option.bind_eq_bind, Option.bind_eq_some_iff] at h
    obtain ⟨a, ha, b, hb, h⟩ := h
    refine ⟨op, a, b, hk, ha, hb, ?_⟩
    split at h
    next hi =>
      obtain ⟨_, he, r', hr, e', hop, hp⟩ := by simpa only [Option.bind_eq_some_iff] using h
      cases he
      cases hp
      exact .inl ⟨hr, _, hi, hop⟩
    next hi _ =>
      obtain ⟨_, he, r', hr, e', hop, hp⟩ := by simpa only [Option.bind_eq_some_iff] using h
      obtain ⟨op', hflip, rfl⟩ := Option.map_eq_some_iff.mp he
      cases hp
      exact .inr ⟨hr, _, _, hi, hflip, hop⟩
    · cases h
  · cases h

section

variable (ht : t.Linked) (hl : t.Laid) (hn : t.isAttached n = true)
include ht hl hn

theorem two_le_of_numeral {text : String} (hk : t.kind (t.stripParens n) = .literal .int text) :
    2 ≤ t.weight n := by
  have hw := (hl.stripParens ht hn).1
  have h2 := NodeKind.two_le_numeralWeight text
  have hle := hl.kind_weight_le ht (ht.attached_of_within hn hw)
  rw [hk, hl.weight_stripParens ht hn] at hle
  exact h2.trans hle

theorem receiver_of_emptinessTest (h : t.emptinessTest? n method = some (r, empty)) :
    (t.kind n).isValue = true ∧ t.SubExpr n r ∧ 12 + 3 * t.weight r ≤ t.weight n := by
  obtain ⟨op, a, b, hk, ha, hb, hcases⟩ := emptinessTest?_cases h
  have hA := hl.subExpr_slot ht hn .refl (i := 0) (by rw [hk]; rfl) ha
  have hB := hl.subExpr_slot ht hn .refl (i := 1) (by rw [hk]; rfl) hb
  have hw := hl.weight_binary ht hn hk ha hb
  refine ⟨by rw [hk]; rfl, ?_⟩
  rcases hcases with ⟨hr, bound, hb0, -⟩ | ⟨hr, bound, flipped, hb0, -⟩ <;>
    obtain ⟨text, htext⟩ := intLiteral?_eq_some hb0
  · obtain ⟨hR, hc⟩ := hl.receiver_of_nullaryCall ht (hA.attached ht hn) hr
    have h2 := two_le_of_numeral ht hl (hB.attached ht hn) htext
    exact ⟨⟨hR.below.trans hA.below, hR.expr⟩, by omega⟩
  · obtain ⟨hR, hc⟩ := hl.receiver_of_nullaryCall ht (hB.attached ht hn) hr
    have h2 := two_le_of_numeral ht hl (hA.attached ht hn) htext
    exact ⟨⟨hR.below.trans hB.below, hR.expr⟩, by omega⟩

theorem putEmptinessTest_puts (h : t.emptinessTest? n method = some (r, empty)) :
    (putEmptinessTest t n r empty).Puts t n ((if empty then (t.doc r).calledOn "isEmpty"
      else ((t.doc r).calledOn "isEmpty").negated).placedAt t n) := by
  obtain ⟨hx, hR, -⟩ := receiver_of_emptinessTest ht hl hn h
  have hD := (hR.doc ht hn hl).calledOn "isEmpty"
  have hy := callOnCopy_yields ht (hR.alive ht hn) (hR.doc ht hn hl) "isEmpty"
  cases empty with
  | true =>
    refine Ends.placed_puts ht hl hn ?_ hD hx
    apply Ends.of_yields hy
    intro test
    apply Ends.of_yields (Yields.pure test _)
    intro test
    exact putAt_ends n test hD
  | false =>
    refine Ends.placed_puts ht hl hn ?_ hD.negated hx
    apply Ends.of_yields hy
    intro test
    exact Ends.of_yields (negate_yields test hD) fun test => putAt_ends n test hD.negated

theorem putEmptinessTest_rewrites (h : t.emptinessTest? n method = some (r, empty)) :
    (putEmptinessTest t n r empty).Rewrites t := by
  obtain ⟨hx, hR, hw⟩ := receiver_of_emptinessTest ht hl hn h
  have hp := putEmptinessTest_puts ht hl hn h
  have hD := (hR.doc ht hn hl).calledOn "isEmpty"
  cases empty with
  | true =>
    rw [if_pos rfl] at hp
    refine hp.placed_rewrites ht hl hn hD hx ?_
    rw [Doc.weight_calledOn, weight_doc, show NodeKind.weight _ = 4 from rfl]
    omega
  | false =>
    rw [if_neg Bool.false_ne_true] at hp
    refine hp.placed_rewrites ht hl hn hD.negated hx ?_
    rw [Doc.weight_negated, Doc.weight_calledOn, weight_doc, show NodeKind.weight _ = 4 from rfl]
    omega

end

theorem stringIsEmpty_descends : Descends stringIsEmpty.planAt := by
  intro v n p ht hl hn h
  simp only [stringIsEmpty.planAt, Option.bind_eq_bind, Option.bind_eq_some_iff, Prod.exists] at h
  obtain ⟨r, empty, hr, h⟩ := h
  split at h
  · obtain rfl := Option.some.inj h
    exact putEmptinessTest_rewrites ht hl hn hr
  · cases h

theorem collectionIsEmpty_descends : Descends collectionIsEmpty.planAt := by
  intro v n p ht hl hn h
  simp only [collectionIsEmpty.planAt, Option.bind_eq_bind, Option.bind_eq_some_iff, Prod.exists] at h
  obtain ⟨r, empty, hr, h⟩ := h
  split at h
  · obtain rfl := Option.some.inj h
    exact putEmptinessTest_rewrites ht hl hn hr
  · cases h

end TreeTidy.Rules
