import TreeTidy.Proofs.Rules.Descends
import TreeTidy.Rules.Text
/-! The rules that drop detours through strings lead downwards. -/
namespace TreeTidy.Rules

open SyntaxTree Draft

theorem stringToString_descends : Descends stringToString.planAt := by
  intro v n p ht hl hn h
  simp only [stringToString.planAt, Option.bind_eq_bind, Option.bind_eq_some_iff] at h
  obtain ⟨r, hr, h⟩ := h
  split at h
  · obtain rfl := Option.some.inj h
    obtain ⟨hk, hrec, hlist⟩ := nullaryCall?_eq_some.mp hr
    have hR := hl.subExpr_slot ht hn .refl (i := 0) (by rw [hk]; rfl) hrec
    have hw := hl.weight_call ht hn hk hrec hlist
    have h4 := NodeKind.four_le_call "toString"
    exact putAt_keep_rewrites ht hl hn hR (by rw [hk]; rfl) (by omega)
  · cases h

theorem stringReplaceAllLiteral_descends : Descends stringReplaceAllLiteral.planAt := by
  intro v n p ht hl hn h
  simp only [stringReplaceAllLiteral.planAt, Option.bind_eq_bind, Option.bind_eq_some_iff] at h
  obtain ⟨c, hc, r, hr, h⟩ := h
  split at h
  next a b hname hargs =>
    simp only [Option.bind_eq_some_iff] at h
    obtain ⟨pattern, -, replacement, -, h⟩ := h
    split at h
    · cases h
    · obtain rfl := Option.some.inj h
      obtain ⟨hk, hrec, hlist⟩ := call?_eq_some.mp hc
      rw [hr] at hrec
      rw [eq_of_beq hname] at hk
      have hR := hl.subExpr_slot ht hn .refl (i := 0) (by rw [hk]; rfl) hrec
      have hA := hl.subExpr_list ht hn .refl (a := a) (by rw [hk]; rfl) (by simp [hlist, hargs])
      have hB := hl.subExpr_list ht hn .refl (a := b) (by rw [hk]; rfl) (by simp [hlist, hargs])
      have hw := hl.weight_call ht hn hk hrec (hlist.trans hargs)
      have hD := Doc.Expr.call (.own hn) "replace" [v.tree.doc a, v.tree.doc b] (hR.doc ht hn hl)
        (fun hc => hc.binding_of_receiver ht hn hk hrec) (by simp [hA.doc ht hn hl, hB.doc ht hn hl])
      refine Ends.expr_rewrites ht hl hn ?_ hD rfl (by rw [hk]; rfl) ?_
      · apply copyTwo_ends ht (hR.alive ht hn) (hA.alive ht hn)
        intro x y
        apply Ends.bind [(x, _), (y, _)] (copy_yields ht (hB.alive ht hn))
        intro z
        apply Ends.of_yields (make_yields [(x, _)] [(y, _), (z, _)] hD.conforms.fits)
        intro call
        exact Ends.pure (.replace n) call _
      · rw [show NodeKind.weight _ = 5 from rfl] at hw
        simp only [List.map_cons, List.map_nil, List.sum_cons, List.sum_nil] at hw
        simp only [Doc.weight_make, Doc.slotsWeight, NodeKind.slotFactor, NodeKind.listFactor,
          weight_doc, List.map_cons, List.map_nil, List.sum_cons, List.sum_nil]
        rw [show NodeKind.weight _ = 4 from rfl]
        omega
  · cases h

theorem stringFromString_descends : Descends stringFromString.planAt := by
  intro v n p ht hl hn h
  simp only [stringFromString.planAt] at h
  split at h
  next arg hk hlist =>
    split at h
    · obtain rfl := Option.some.inj h
      have hA := hl.subExpr_list ht hn .refl (a := arg) (by rw [hk]; rfl) (by simp [hlist])
      have hw := hl.weight_eq ht hn
      have hs := hl.weight_stripParens ht (hA.attached ht hn)
      rw [hk, hlist, show NodeKind.weight .newObject = 20 from rfl] at hw
      simp only [NodeKind.listFactor, List.map_cons, List.map_nil, List.sum_cons, List.sum_nil] at hw
      exact putAt_keep_rewrites ht hl hn (hA.stripParens ht hl hn) (by rw [hk]; rfl) (by omega)
    · cases h
  · cases h

end TreeTidy.Rules
