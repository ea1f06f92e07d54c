import TreeTidy.Proofs.Rules.Descends
import TreeTidy.Rules.Wrapper
/-! The rules on wrapper classes lead downwards. -/
namespace TreeTidy.Rules

open SyntaxTree Draft

variable {v : View} {n : NodeId} {b : Boxing} {method : String}

/-- What a call on a wrapper class weighs, but for its argument. -/
def wrapperWeight (b : Boxing) : Nat := 4 + 3 * NodeKind.weight (.typeName b.name)

theorem wrapperWeight_le (b : Boxing) : wrapperWeight b ≤ 19 := by
  unfold wrapperWeight
  simp only [NodeKind.weight]
  split <;> decide

section

variable (ht : v.tree.Linked) (hl : v.tree.Laid) (hn : v.tree.isAttached n = true)
include ht hl hn

theorem boxingByNew?_sound (h : boxingByNew? v n = some b) : (v.tree.kind n).isValue = true ∧
    v.tree.SubExpr n b.argument ∧ wrapperWeight b + 2 * v.tree.weight b.argument < v.tree.weight n := by
  simp only [boxingByNew?] at h
  split at h
  next argument hk hlist =>
    simp only [Option.bind_eq_bind, Option.bind_eq_some_iff] at h
    obtain ⟨ty, hty, h⟩ := h
    split at h
    next name d hkt hlt =>
      simp only [Option.bind_eq_some_iff] at h
      obtain ⟨q, -, hb⟩ := h
      cases hb
      have hA := hl.subExpr_list ht hn .refl (a := argument) (by rw [hk]; rfl) (by simp [hlist])
      have hw := hl.weight_eq ht hn
      have hle := wrapperWeight_le ⟨name, q, argument⟩
      rw [hk, hlist, show NodeKind.weight .newObject = 20 from rfl] at hw
      simp only [NodeKind.listFactor, List.map_cons, List.map_nil, List.sum_cons, List.sum_nil] at hw
      refine ⟨by rw [hk]; rfl, hA, ?_⟩
      simp only at hw ⊢
      omega
    · cases h
  · cases h

theorem boxingByCall?_sound (h : boxingByCall? v n = some b) :
    v.tree.SubExpr n b.argument ∧ wrapperWeight b + 2 * v.tree.weight b.argument ≤ v.tree.weight n := by
  simp only [boxingByCall?, Option.bind_eq_bind, Option.bind_eq_some_iff] at h
  obtain ⟨c, hc, r, hr, h⟩ := h
  split at h
  next argument name hname hargs hkr =>
    simp only [Option.bind_eq_some_iff] at h
    obtain ⟨q, -, hb⟩ := h
    cases hb
    obtain ⟨hk, hrec, hlist⟩ := call?_eq_some.mp hc
    rw [hr] at hrec
    have hR := hl.subExpr_slot ht hn .refl (i := 0) (by rw [hk]; rfl) hrec
    have hA := hl.subExpr_list ht hn .refl (a := argument) (by rw [hk]; rfl) (by simp [hlist, hargs])
    have hw := hl.weight_call ht hn hk hrec (hlist.trans hargs)
    have h4 := NodeKind.four_le_call c.name
    have hr := hl.kind_weight_le ht (hR.attached ht hn)
    rw [hkr] at hr
    simp only [List.map_cons, List.map_nil, List.sum_cons, List.sum_nil] at hw
    refine ⟨hA, ?_⟩
    simp only [wrapperWeight]
    omega
  · cases h

theorem putWrapperCall_rewrites (hm : NodeKind.weight (.methodCall method) = 4)
    (hx : (v.tree.kind n).isValue = true) (hs : v.tree.SubExpr n b.argument)
    (hw : wrapperWeight b + 2 * v.tree.weight b.argument < v.tree.weight n) :
    (putWrapperCall v.tree n b method).Rewrites v.tree := by
  have hC : (Doc.make (.typeName b.name) (v.tree.span n) [] []).Expr v.tree :=
    .leaf (.own hn) rfl rfl rfl
  have hD := Doc.Expr.call (.own hn) method [v.tree.doc b.argument] hC (fun _ => rfl)
    (by simpa using hs.doc ht hn hl)
  refine Ends.expr_rewrites ht hl hn ?_ hD rfl hx ?_
  · apply Ends.of_yields (make_yields [] [] hC.conforms.fits)
    intro cls
    apply Ends.bind [(cls, _)] (copy_yields ht (hs.alive ht hn))
    intro argument
    apply Ends.of_yields (make_yields [(cls, _)] [(argument, _)] hD.conforms.fits)
    intro call
    exact Ends.pure (.replace n) call _
  · rw [wrapperWeight] at hw
    simp only [Doc.weight_make, Doc.slotsWeight, NodeKind.slotFactor, NodeKind.listFactor,
      weight_doc, hm, List.map_cons, List.map_nil, List.sum_cons, List.sum_nil]
    omega

end

theorem primitiveWrapperInstantiation_descends : Descends primitiveWrapperInstantiation.planAt := by
  intro v n p ht hl hn h
  obtain ⟨b, hb, rfl⟩ := Option.map_eq_some_iff.mp h
  obtain ⟨hx, hs, hw⟩ := boxingByNew?_sound ht hl hn hb
  exact putWrapperCall_rewrites ht hl hn rfl hx hs hw

theorem boxedPrimitiveToString_descends : Descends boxedPrimitiveToString.planAt := by
  intro v n p ht hl hn h
  simp only [boxedPrimitiveToString.planAt, Option.bind_eq_bind, Option.bind_eq_some_iff] at h
  obtain ⟨r, hr, b, hb, h⟩ := h
  split at h
  · obtain rfl := Option.some.inj h
    obtain ⟨hk, hrec, hlist⟩ := nullaryCall?_eq_some.mp hr
    have hR := hl.subExpr_slot ht hn .refl (i := 0) (by rw [hk]; rfl) hrec
    have hS := hR.stripParens ht hl hn
    have hw := hl.weight_call ht hn hk hrec hlist
    have h4 := NodeKind.four_le_call "toString"
    have hstrip := hl.weight_stripParens ht (hR.attached ht hn)
    have hsa := hS.attached ht hn
    have hbox : v.tree.SubExpr (v.tree.stripParens r) b.argument ∧
        wrapperWeight b + 2 * v.tree.weight b.argument ≤ v.tree.weight (v.tree.stripParens r) := by
      rcases Option.or_eq_some_iff.mp hb with hb | ⟨-, hb⟩
      · obtain ⟨-, hs, hw⟩ := boxingByNew?_sound ht hl hsa hb
        exact ⟨hs, hw.le⟩
      · exact boxingByCall?_sound ht hl hsa hb
    obtain ⟨hs, hle⟩ := hbox
    refine putWrapperCall_rewrites ht hl hn rfl (by rw [hk]; rfl)
      ⟨hs.below.trans hS.below, hs.expr⟩ ?_
    omega
  · cases h

end TreeTidy.Rules
