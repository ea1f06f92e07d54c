import TreeTidy.Proofs.Rules.Comparison
import TreeTidy.Proofs.Rules.Lambda
import TreeTidy.Proofs.Rules.Negation
import TreeTidy.Proofs.Rules.Nests
import TreeTidy.Proofs.Rules.Wrapper
import TreeTidy.Rules.Literal
import TreeTidy.Rules.Text
/-!
The rules on expressions keep spans nested: what they make has the span of the node that it stands
for, or covers the two operands that it is made of.
-/
namespace TreeTidy.Rules

open SyntaxTree Draft

/-- Whatever plan the rule has, it keeps nested spans nested. -/
def KeepsNested (planAt : View → NodeId → Option Plan) : Prop :=
  ∀ ⦃v n p⦄, v.tree.Linked → v.tree.Laid → v.tree.Nested → v.tree.isAttached n = true →
    planAt v n = some p → p.Nests v.tree

variable {t : SyntaxTree} {a b n r : NodeId}

theorem within_slot {i : Nat} (h : t.slot? n i = some a) : t.Within a n := .single (child_slot h)

theorem within_list (h : a ∈ t.list n) : t.Within a n := .single (child_list h)

section

variable (ht : t.Linked) (hl : t.Laid) (hs : t.Nested) (hn : t.isAttached n = true)
include ht hl hn

theorem within_stripParens (h : t.Within a n) : t.Within (t.stripParens a) n :=
  (hl.stripParens ht (ht.attached_of_within hn h)).1.trans h

theorem within_of_negation (h : t.negatedOperand? n = some a) : t.Within a n :=
  (operand_of_negation ht hl hn h).2.1.below.to_reflTransGen

omit hl in
include hs in
/-- A node gives way to one below it. -/
theorem lift_nests (h : t.Within a n) : (Plan.mk [] (.replace n (.old a))).Nests t :=
  ⟨.nil, .replace (.old (ht.attached_of_within hn h)) (hs.span_within ht hn h)⟩

omit hl ht in
include hs in
/-- A node gives way to one without children. -/
theorem leaf_nests (kind : NodeKind) :
    (Plan.mk [.make kind (t.span n) [] []] (.replace n (.new 0))).Nests t := by
  have h : Closes t [] (make kind (t.span n) [] [] >>= fun q => pure (.replace n q.ref)) :=
    closes_whole hs hn kind (List.forall_mem_nil _)
  exact plan_nests h

omit hl in
include hs in
/-- Two nodes below one are joined in its place. -/
theorem join_nests_within (op : BinaryOp) (ha : t.Within a n) (hb : t.Within b n) :
    (plan do
      let a ← copy t a
      let b ← copy t b
      let joined ← join op a b
      putAt t n joined).Nests t := by
  refine plan_nests (closes_copy hs ht hn ha fun x hx => closes_copy hs ht hn hb fun y hy => ?_)
  exact .bind (join_nests hs op (by simp) (by simp) hx hy) fun q hq => putAt_closes hs hn (.head _) hq

end

section Negation

theorem doubleNegation_nests : KeepsNested doubleNegation.planAt := by
  intro v n p ht hl hs hn h
  simp only [doubleNegation.planAt, Option.bind_eq_bind, Option.bind_eq_some_iff,
    Option.some.injEq] at h
  obtain ⟨inner, hi, operand, ho, rfl⟩ := h
  have hw := within_of_negation ht hl hn hi
  have hw' := within_of_negation ht hl (ht.attached_of_within hn hw) ho
  exact plan_nests (keep_closes_within hs ht hn (hw'.trans hw))

theorem negatedComparison_nests : KeepsNested negatedComparison.planAt := by
  intro v n p ht hl hs hn h
  simp only [negatedComparison.planAt, Option.bind_eq_bind, Option.bind_eq_some_iff] at h
  obtain ⟨c, hc, h⟩ := h
  have hw := within_of_negation ht hl hn hc
  split at h
  next op hk =>
    simp only [Option.bind_eq_some_iff] at h
    obtain ⟨negated, -, a, ha, b, hb, h⟩ := h
    split at h
    · cases h
    · obtain rfl := Option.some.inj h
      exact join_nests_within ht hs hn negated ((within_slot ha).trans hw) ((within_slot hb).trans hw)
  next => cases h

theorem optionalNotEmpty_nests : KeepsNested optionalNotEmpty.planAt := by
  intro v n p ht hl hs hn h
  simp only [optionalNotEmpty.planAt, Option.bind_eq_bind, Option.bind_eq_some_iff, Prod.exists] at h
  obtain ⟨c, hc, r, opposite, hr, h⟩ := h
  split at h
  · cases h
  · obtain rfl := Option.some.inj h
    obtain ⟨⟨tested, -, hr, -⟩, -⟩ := presenceTest?_eq_some hr
    have hw := (within_slot hr).trans (within_of_negation ht hl hn hc)
    refine plan_nests (.bind (callOnCopy_nests hs opposite (ht.attached_of_within hn hw)
      (hs.span_within ht hn hw)) fun test htest => ?_)
    exact putAt_closes hs hn (.head _) htest

end Negation

section Comparison

theorem booleanLiteralComparison_nests : KeepsNested booleanLiteralComparison.planAt := by
  intro v n p ht hl hs hn h
  simp only [booleanLiteralComparison.planAt] at h
  split at h
  next op hk =>
    split at h
    · cases h
    simp only [Option.bind_eq_bind, Option.bind_eq_some_iff, Prod.exists] at h
    obtain ⟨a, ha, b, hb, operand, literal, hc, h⟩ := h
    have hw : v.tree.Within operand n := by
      rcases literalComparison?_cases hc with ⟨rfl, -⟩ | ⟨rfl, -⟩
      · exact within_slot ha
      · exact within_slot hb
    split at h
    · cases h
    split at h
    · obtain rfl := Option.some.inj h
      exact plan_nests (keep_closes_within hs ht hn hw)
    · obtain rfl := Option.some.inj h
      refine plan_nests (closes_copy hs ht hn hw fun x hx => ?_)
      exact .bind (negate_nests hs (.head _) hx) fun q hq => putAt_closes hs hn (.head _) hq
  next => cases h

theorem nullLiteralOnRight_nests : KeepsNested nullLiteralOnRight.planAt := by
  intro v n p ht hl hs hn h
  simp only [nullLiteralOnRight.planAt] at h
  split at h
  next op hk =>
    simp only [Option.bind_eq_bind, Option.bind_eq_some_iff] at h
    obtain ⟨a, ha, b, hb, h⟩ := h
    split at h
    · cases h
    · obtain rfl := Option.some.inj h
      refine plan_nests (closes_copy hs ht hn (within_slot ha) fun x hx =>
        closes_copy hs ht hn (within_slot hb) fun y hy => ?_)
      exact .bind (join_nests hs op (by simp) (by simp) hy hx) fun q hq =>
        putAt_closes hs hn (.head _) hq
  next => cases h

theorem literalsFirstInComparisons_nests : KeepsNested literalsFirstInComparisons.planAt := by
  intro v n p ht hl hs hn h
  simp only [literalsFirstInComparisons.planAt, Option.bind_eq_bind, Option.bind_eq_some_iff] at h
  obtain ⟨c, hc, r, hr, arg, harg, h⟩ := h
  split at h
  · cases h
  · obtain rfl := Option.some.inj h
    obtain ⟨-, hrec, hlist⟩ := call?_eq_some.mp hc
    have hw := within_stripParens ht hl hn (within_list (hlist ▸ List.mem_of_head? harg))
    refine plan_nests (closes_copy hs ht hn hw fun x hx =>
      closes_copy hs ht hn (within_slot (hrec.trans hr)) fun y hy => ?_)
    exact closes_whole hs hn _ (by simp [hx, hy])

theorem primitiveObjectsEquals_nests : KeepsNested primitiveObjectsEquals.planAt := by
  intro v n p ht hl hs hn h
  simp only [primitiveObjectsEquals.planAt, Option.bind_eq_bind, Option.bind_eq_some_iff,
    Prod.exists] at h
  obtain ⟨r, a, b, hc, h⟩ := h
  split at h
  next cls hcls =>
    split at h
    · cases h
    · obtain rfl := Option.some.inj h
      obtain ⟨-, -, hlist⟩ := staticPair?_eq_some hc
      exact join_nests_within ht hs hn .eq (within_list (by simp [hlist]))
        (within_list (by simp [hlist]))
  next => cases h

end Comparison

section Emptiness

theorem putEmptinessTest_nests {method : String} {empty : Bool} (ht : t.Linked) (hl : t.Laid)
    (hs : t.Nested) (hn : t.isAttached n = true) (h : t.emptinessTest? n method = some (r, empty)) :
    (putEmptinessTest t n r empty).Nests t := by
  have hw := (receiver_of_emptinessTest ht hl hn h).2.1.below.to_reflTransGen
  refine plan_nests (.bind (callOnCopy_nests hs "isEmpty" (ht.attached_of_within hn hw)
    (hs.span_within ht hn hw)) fun test htest => ?_)
  cases empty with
  | true => exact .bind (.pure (.head _) htest) fun q hq => putAt_closes hs hn (.head _) hq
  | false =>
    exact .bind (negate_nests hs (.head _) htest) fun q hq => putAt_closes hs hn (.head _) hq

theorem stringIsEmpty_nests : KeepsNested stringIsEmpty.planAt := by
  intro v n p ht hl hs hn h
  simp only [stringIsEmpty.planAt, Option.bind_eq_bind, Option.bind_eq_some_iff, Prod.exists] at h
  obtain ⟨r, empty, hr, h⟩ := h
  split at h
  · obtain rfl := Option.some.inj h
    exact putEmptinessTest_nests ht hl hs hn hr
  · cases h

theorem collectionIsEmpty_nests : KeepsNested collectionIsEmpty.planAt := by
  intro v n p ht hl hs hn h
  simp only [collectionIsEmpty.planAt, Option.bind_eq_bind, Option.bind_eq_some_iff, Prod.exists] at h
  obtain ⟨r, empty, hr, h⟩ := h
  split at h
  · obtain rfl := Option.some.inj h
    exact putEmptinessTest_nests ht hl hs hn hr
  · cases h

end Emptiness

section Text

theorem stringToString_nests : KeepsNested stringToString.planAt := by
  intro v n p ht hl hs hn h
  simp only [stringToString.planAt, Option.bind_eq_bind, Option.bind_eq_some_iff] at h
  obtain ⟨r, hr, h⟩ := h
  split at h
  · obtain rfl := Option.some.inj h
    exact plan_nests (keep_closes_within hs ht hn (within_slot (nullaryCall?_eq_some.mp hr).2.1))
  · cases h

theorem stringReplaceAllLiteral_nests : KeepsNested stringReplaceAllLiteral.planAt := by
  intro v n p ht hl hs hn h
  simp only [stringReplaceAllLiteral.planAt, Option.bind_eq_bind, Option.bind_eq_some_iff] at h
  obtain ⟨c, hc, r, hr, h⟩ := h
  split at h
  next a b hname hargs =>
    simp only [Option.bind_eq_some_iff] at h
    obtain ⟨pattern, -, replacement, -, h⟩ := h
    split at h
    · cases h
    · obtain rfl := Option.some.inj h
      obtain ⟨-, hrec, hlist⟩ := call?_eq_some.mp hc
      refine plan_nests (closes_copy hs ht hn (within_slot (hrec.trans hr)) fun x hx =>
        closes_copy hs ht hn (within_list (a := a) (by simp [hlist, hargs])) fun y hy =>
        closes_copy hs ht hn (within_list (a := b) (by simp [hlist, hargs])) fun z hz => ?_)
      exact closes_whole hs hn _ (by simp [hx, hy, hz])
  · cases h

theorem stringFromString_nests : KeepsNested stringFromString.planAt := by
  intro v n p ht hl hs hn h
  simp only [stringFromString.planAt] at h
  split at h
  next arg hk hlist =>
    split at h
    · obtain rfl := Option.some.inj h
      have hw := within_stripParens ht hl hn (within_list (a := arg) (by simp [hlist]))
      exact plan_nests (keep_closes_within hs ht hn hw)
    · cases h
  · cases h

end Text

section Literal

theorem longLiteralSuffix_nests : KeepsNested longLiteralSuffix.planAt := by
  intro v n p ht hl hs hn h
  simp only [longLiteralSuffix.planAt] at h
  split at h
  · obtain ⟨digits, -, rfl⟩ := Option.map_eq_some_iff.mp h
    exact leaf_nests hs hn _
  · cases h

theorem numericLiteralUnderscores_nests : KeepsNested numericLiteralUnderscores.planAt := by
  intro v n p ht hl hs hn h
  simp only [numericLiteralUnderscores.planAt] at h
  split at h
  · split at h
    · obtain ⟨grouped, -, rfl⟩ := Option.map_eq_some_iff.mp h
      exact leaf_nests hs hn _
    · cases h
  · cases h

theorem stringIndexOfChar_nests : KeepsNested stringIndexOfChar.planAt := by
  intro v n p ht hl hs hn h
  simp only [stringIndexOfChar.planAt, Option.bind_eq_bind, Option.bind_eq_some_iff] at h
  obtain ⟨c, hc, needle, hneedle, r, -, text, -, h⟩ := h
  split at h
  · cases h
  · obtain rfl := Option.some.inj h
    obtain ⟨-, -, hlist⟩ := call?_eq_some.mp hc
    have hw := within_list (hlist ▸ List.mem_of_head? hneedle)
    exact leaf_nests hs (ht.attached_of_within hn hw) _

end Literal

section Wrapper

variable {b : Boxing}

theorem putWrapperCall_nests {t : SyntaxTree} (ht : t.Linked) (hs : t.Nested)
    (hn : t.isAttached n = true) (method : String) (hw : t.Within b.argument n) :
    (putWrapperCall t n b method).Nests t := by
  refine plan_nests (.bind (make_nests (hs n hn).1 (List.forall_mem_nil _) (.refl _)) fun cls hcls =>
    closes_copy hs ht hn hw fun argument ha => ?_)
  exact closes_whole hs hn _ (by simp [hcls, ha])

theorem primitiveWrapperInstantiation_nests : KeepsNested primitiveWrapperInstantiation.planAt := by
  intro v n p ht hl hs hn h
  obtain ⟨b, hb, rfl⟩ := Option.map_eq_some_iff.mp h
  have hA := (boxingByNew?_sound ht hl hn hb).2.1
  exact putWrapperCall_nests ht hs hn "valueOf" hA.below.to_reflTransGen

theorem boxedPrimitiveToString_nests : KeepsNested boxedPrimitiveToString.planAt := by
  intro v n p ht hl hs hn h
  simp only [boxedPrimitiveToString.planAt, Option.bind_eq_bind, Option.bind_eq_some_iff] at h
  obtain ⟨r, hr, b, hb, h⟩ := h
  split at h
  · obtain rfl := Option.some.inj h
    have hw := within_stripParens ht hl hn (within_slot (nullaryCall?_eq_some.mp hr).2.1)
    have hsa := ht.attached_of_within hn hw
    have hA : v.tree.SubExpr (v.tree.stripParens r) b.argument := by
      rcases Option.or_eq_some_iff.mp hb with hb | ⟨-, hb⟩
      · exact (boxingByNew?_sound ht hl hsa hb).2.1
      · exact (boxingByCall?_sound ht hl hsa hb).1
    exact putWrapperCall_nests ht hs hn "toString" (hA.below.to_reflTransGen.trans hw)
  · cases h

end Wrapper

section Lambda

theorem lambdaParenthesesRemoval_nests : KeepsNested lambdaParenthesesRemoval.planAt := by
  intro v n p ht hl hs hn h
  simp only [lambdaParenthesesRemoval.planAt] at h
  split at h
  next param hk hlist =>
    split at h
    · cases h
    · simp only [Option.bind_eq_bind, Option.bind_eq_some_iff, Option.some.injEq] at h
      obtain ⟨body, hb, rfl⟩ := h
      refine plan_nests (closes_copy hs ht hn (within_slot hb) fun x hx =>
        closes_copy hs ht hn (within_list (a := param) (by simp [hlist])) fun y hy => ?_)
      exact closes_whole hs hn _ (by simp [hx, hy])
  · cases h

theorem lambdaReturnsSingleStatement_nests : KeepsNested lambdaReturnsSingleStatement.planAt := by
  intro v n p ht hl hs hn h
  simp only [lambdaReturnsSingleStatement.planAt] at h
  split at h
  · cases h
  · simp only [Option.bind_eq_bind, Option.bind_eq_some_iff] at h
    obtain ⟨body, hb, h⟩ := h
    split at h
    next stmt hkb hlist =>
      obtain ⟨e, he, rfl⟩ := Option.map_eq_some_iff.mp h
      have hw := within_list (t := v.tree) (n := body) (a := stmt) (by simp [hlist])
      have hba := ht.attached_child hn (child_slot hb)
      exact lift_nests ht hs hba ((within_slot (bodyExpr?_eq_some he).1).trans hw)
    · cases h

theorem lambdaIsMethodReference_nests : KeepsNested lambdaIsMethodReference.planAt := by
  intro v n p ht hl hs hn h
  simp only [lambdaIsMethodReference.planAt, Option.bind_eq_bind, Option.bind_eq_some_iff,
    Prod.exists] at h
  obtain ⟨ty, cls, method, -, h⟩ := h
  split at h
  · cases h
  · obtain rfl := Option.some.inj h
    refine plan_nests (.bind (make_nests (hs n hn).1 (List.forall_mem_nil _) (.refl _))
      fun qualifier hq => ?_)
    exact closes_whole hs hn _ (by simp [hq])

theorem streamForEach_nests : KeepsNested streamForEach.planAt := by
  intro v n p ht hl hs hn h
  simp only [streamForEach.planAt, Option.bind_eq_bind, Option.bind_eq_some_iff] at h
  obtain ⟨c, hc, stream, hstream, h⟩ := h
  split at h
  next action hname hargs =>
    simp only [Option.bind_eq_some_iff] at h
    obtain ⟨source, hsource, h⟩ := h
    split at h
    · cases h
    · obtain rfl := Option.some.inj h
      obtain ⟨-, hrec, hlist⟩ := call?_eq_some.mp hc
      have hw := within_stripParens ht hl hn (within_slot (hrec.trans hstream))
      have hsw := (within_slot (nullaryCall?_eq_some.mp hsource).2.1).trans hw
      refine plan_nests (closes_copy hs ht hn hsw fun x hx =>
        closes_copy hs ht hn (within_list (a := action) (by simp [hlist, hargs])) fun y hy => ?_)
      exact closes_whole hs hn _ (by simp [hx, hy])
  · cases h

end Lambda

theorem redundantParentheses_nests : KeepsNested redundantParentheses.planAt := by
  intro v n p ht hl hs hn h
  simp only [redundantParentheses.planAt] at h
  split at h
  next hk =>
    simp only [Option.bind_eq_bind, Option.bind_eq_some_iff] at h
    obtain ⟨a, ha, h⟩ := h
    split at h
    · obtain rfl := Option.some.inj h
      exact lift_nests ht hs hn (within_slot ha)
    · cases h
  next => cases h

end TreeTidy.Rules
