import TreeTidy.Proofs.Rules.Descends
import TreeTidy.Rules.Negation
/-!
The rules on negations lead downwards: each takes a negation away. Without parentheses the weight stays,
but there is one node less.
-/
namespace TreeTidy.Rules

open SyntaxTree Draft

variable {t : SyntaxTree} {a b n r : NodeId} {name : String}

section

variable (ht : t.Linked) (hl : t.Laid) (hn : t.isAttached n = true)
include ht hl hn

/-- The operand of a negation is an expression below it. -/
theorem operand_of_negation (h : t.negatedOperand? n = some a) :
    (t.kind n).isValue = true ∧ t.SubExpr n a ∧ 4 + t.weight a ≤ t.weight n := by
  obtain ⟨hk, b, hb, rfl⟩ := negatedOperand?_eq_some.mp h
  have hs := hl.subExpr_slot ht hn .refl (i := 0) (by rw [hk]; rfl) hb
  have hw := hl.weight_unary ht hn hk hb
  rw [hl.weight_stripParens ht (hs.attached ht hn)]
  exact ⟨by rw [hk]; rfl, hs.stripParens ht hl hn, hw⟩

end

section

variable {v : View} {p : Plan} (ht : v.tree.Linked) (hl : v.tree.Laid)
  (hn : v.tree.isAttached n = true)
include ht hl hn

theorem doubleNegation_puts (h : doubleNegation.planAt v n = some p) :
    ∃ inner a, v.tree.negatedOperand? n = some inner ∧ v.tree.negatedOperand? inner = some a ∧
      p.Puts v.tree n ((v.tree.doc a).placedAt v.tree n) := by
  simp only [doubleNegation.planAt, Option.bind_eq_bind, Option.bind_eq_some_iff,
    Option.some.injEq] at h
  obtain ⟨inner, hi, operand, ho, rfl⟩ := h
  obtain ⟨hx, hs, -⟩ := operand_of_negation ht hl hn hi
  obtain ⟨-, hs', -⟩ := operand_of_negation ht hl (hs.attached ht hn) ho
  have hop : v.tree.SubExpr n operand := ⟨hs'.below.trans hs.below, hs'.expr⟩
  exact ⟨inner, operand, hi, ho, putAt_keep_puts ht hl hn hop hx⟩

theorem negatedComparison_puts (h : negatedComparison.planAt v n = some p) :
    ∃ c op negated a b, v.tree.negatedOperand? n = some c ∧ v.tree.kind c = .binary op ∧
      op.negated? = some negated ∧ v.tree.slot? c 0 = some a ∧ v.tree.slot? c 1 = some b ∧
      (op.isRelational = true → areIntegral v a b = true) ∧
      p.Puts v.tree n (((v.tree.doc a).joined negated (v.tree.doc b)).placedAt v.tree n) := by
  simp only [negatedComparison.planAt, Option.bind_eq_bind, Option.bind_eq_some_iff] at h
  obtain ⟨c, hc, h⟩ := h
  obtain ⟨hx, hs, -⟩ := operand_of_negation ht hl hn hc
  split at h
  next op hk =>
    simp only [Option.bind_eq_some_iff] at h
    obtain ⟨negated, hneg, a, ha, b, hb, h⟩ := h
    split at h
    · cases h
    next hint =>
      obtain rfl := Option.some.inj h
      have hca := hs.attached ht hn
      have hA := hl.subExpr_slot ht hca .refl (i := 0) (by rw [hk]; rfl) ha
      have hB := hl.subExpr_slot ht hca .refl (i := 1) (by rw [hk]; rfl) hb
      have hDA := hA.doc ht hca hl
      have hDB := hB.doc ht hca hl
      have hj := hDA.joined negated hDB
      refine ⟨c, op, negated, a, b, hc, hk, hneg, ha, hb, by simpa using hint, ?_⟩
      refine Ends.placed_puts ht hl hn ?_ hj hx
      apply copyTwo_ends ht (hA.alive ht hca) (hB.alive ht hca)
      intro x y
      exact Ends.of_yields (join_yields negated x y hDA hDB) fun folded => putAt_ends n folded hj
  next => cases h

end

theorem doubleNegation_descends : Descends doubleNegation.planAt := by
  intro v n p ht hl hn h
  obtain ⟨inner, operand, hi, ho, hp⟩ := doubleNegation_puts ht hl hn h
  obtain ⟨hx, hs, hw⟩ := operand_of_negation ht hl hn hi
  obtain ⟨-, hs', hw'⟩ := operand_of_negation ht hl (hs.attached ht hn) ho
  refine hp.placed_rewrites ht hl hn (hs'.doc ht (hs.attached ht hn) hl) hx ?_
  rw [weight_doc]
  omega

theorem negatedComparison_descends : Descends negatedComparison.planAt := by
  intro v n p ht hl hn h
  obtain ⟨c, op, negated, a, b, hc, hk, -, ha, hb, -, hp⟩ := negatedComparison_puts ht hl hn h
  obtain ⟨hx, hs, hw⟩ := operand_of_negation ht hl hn hc
  have hca := hs.attached ht hn
  have hA := hl.subExpr_slot ht hca .refl (i := 0) (by rw [hk]; rfl) ha
  have hB := hl.subExpr_slot ht hca .refl (i := 1) (by rw [hk]; rfl) hb
  have hw' := hl.weight_binary ht hca hk ha hb
  refine hp.placed_rewrites ht hl hn ((hA.doc ht hca hl).joined negated (hB.doc ht hca hl)) hx ?_
  rw [Doc.weight_joined, weight_doc, weight_doc]
  omega

/-- A test of presence is a call without arguments, and so is its contrary. -/
theorem presenceTest?_eq_some (h : presenceTest? t n = some (r, name)) :
    (∃ tested, t.kind n = .methodCall tested ∧ t.slot? n 0 = some r ∧ t.list n = []) ∧
      NodeKind.weight (.methodCall name) = 4 := by
  unfold presenceTest? at h
  split at h
  next hc =>
    cases h
    exact ⟨⟨_, nullaryCall?_eq_some.mp hc⟩, rfl⟩
  next =>
    obtain ⟨r', hc, he⟩ := Option.map_eq_some_iff.mp h
    cases he
    exact ⟨⟨_, nullaryCall?_eq_some.mp hc⟩, rfl⟩

theorem optionalNotEmpty_descends : Descends optionalNotEmpty.planAt := by
  intro v n p ht hl hn h
  simp only [optionalNotEmpty.planAt, Option.bind_eq_bind, Option.bind_eq_some_iff, Prod.exists] at h
  obtain ⟨c, hc, r, opposite, hr, h⟩ := h
  split at h
  · cases h
  · obtain rfl := Option.some.inj h
    obtain ⟨hx, hs, hw⟩ := operand_of_negation ht hl hn hc
    obtain ⟨⟨tested, hk, hr, ha⟩, hopp⟩ := presenceTest?_eq_some hr
    have hca := hs.attached ht hn
    have hR := hl.subExpr_slot ht hca .refl (i := 0) (by rw [hk]; rfl) hr
    have hw' := hl.weight_call ht hca hk hr ha
    have hD := (hR.doc ht hca hl).calledOn opposite
    refine Ends.placed_rewrites ht hl hn ?_ hD hx ?_
    · apply Ends.of_yields (callOnCopy_yields ht (hR.alive ht hca) (hR.doc ht hca hl) opposite)
      exact fun test => putAt_ends n test hD
    · have h4 := NodeKind.four_le_call tested
      rw [Doc.weight_calledOn, hopp, weight_doc]
      omega

theorem binding_of_isPrimary {k : NodeKind} (h : isPrimary k = true) : k.binding = 13 := by
  cases k <;> first | rfl | cases h

theorem redundantParentheses_descends : Descends redundantParentheses.planAt := by
  intro v n p ht hl hn h
  simp only [redundantParentheses.planAt] at h
  split at h
  next hk =>
    simp only [Option.bind_eq_bind, Option.bind_eq_some_iff] at h
    obtain ⟨a, ha, h⟩ := h
    split at h
    next hprim =>
      obtain rfl := Option.some.inj h
      have hs := hl.subExpr_slot ht hn .refl (i := 0) (by rw [hk]; rfl) ha
      have hx : (v.tree.kind n).isExpression = true := by rw [hk]; rfl
      have hD := hs.doc ht hn hl
      have hsuits : v.tree.Suits n (v.tree.doc a) := by
        refine ⟨hD.clear, hD.spans, fun _ _ _ _ _ => NodeKind.bears_of_binding ?_, ?_⟩
        · rw [ht.kind_doc]
          exact binding_of_isPrimary hprim
        · -- what is written to in parentheses is still written to without them
          rintro (hvar | ⟨-, hc, h⟩)
          · rw [ht.kind_doc, hk] at hvar
            cases hvar
          · rw [ht.child?_doc, show (v.tree.node n).at? (.slot 0) = some a from ha] at hc
            exact Option.some.inj hc ▸ h
      refine lift_rewrites ht hl hn hs.below (hl.takes_expr ht hn hx hs.expr) hsuits (.inr ⟨?_, ?_⟩)
      · exact (hl.weight_paren ht hn hk ha).symm
      · exact hl.count_lt ht hn ha
    · cases h
  next => cases h

end TreeTidy.Rules
