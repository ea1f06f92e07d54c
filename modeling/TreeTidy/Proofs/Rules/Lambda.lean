import TreeTidy.Proofs.Rules.Descends
import TreeTidy.Rules.Lambda
/-! The rules on lambdas lead downwards. -/
namespace TreeTidy.Rules

open SyntaxTree Draft

variable {t : SyntaxTree} {n r : NodeId} {name : String}

theorem isLambda_iff {k : NodeKind} : isLambda k = true ↔ ∃ p, k = .lambda p := by
  cases k <;> simp [isLambda]

theorem lambdaParenthesesRemoval_descends : Descends lambdaParenthesesRemoval.planAt := by
  intro v n p ht hl hn h
  simp only [lambdaParenthesesRemoval.planAt] at h
  split at h
  next param hk hlist =>
    split at h
    · cases h
    · simp only [Option.bind_eq_bind, Option.bind_eq_some_iff, Option.some.injEq] at h
      obtain ⟨body, hb, rfl⟩ := h
      have hpc : v.tree.Child param n := child_list (by simp [hlist])
      have hba := ht.attached_child hn (child_slot hb)
      have hpa := ht.attached_child hn hpc
      have hbk := hl.admits_slot ht hn hb
      have hpk := hl.admits_list ht hn (c := param) (by simp [hlist])
      rw [hk] at hbk hpk
      have hf : (Doc.make (.lambda false) (v.tree.span n) [v.tree.doc body] [v.tree.doc param]).Fits := by
        refine ⟨.cons ?_ .nil, nofun, ?_⟩
        · show SlotClass.lambdaBody.accepts (v.tree.doc body).kind = true
          rw [ht.kind_doc]
          exact hbk
        · rintro _ ⟨⟩
          refine ⟨Nat.zero_le _, List.forall_mem_singleton.mpr ?_⟩
          rw [ht.kind_doc]
          exact hpk
      have hD : (Doc.make (.lambda false) (v.tree.span n) [v.tree.doc body] [v.tree.doc param]).Expr
          v.tree :=
        ⟨.make hf (.own hn) rfl (fun _ => ⟨.inl (Nat.zero_le _), trivial⟩)
          (List.forall_mem_singleton.mpr (hl.proper ht hba))
          (List.forall_mem_singleton.mpr (hl.proper ht hpa)), rfl⟩
      have hx : (v.tree.kind n).isValue = true := by rw [hk]; rfl
      refine Ends.replace_rewrites ht hl hn ?_ hD.conforms (hl.takes_expr ht hn (by rw [hk]; rfl) rfl)
        (suits_of_isValue ht hD.toProper hx ?_) (.inl ?_)
      · apply copyTwo_ends ht (attached_alive hba) (attached_alive hpa)
        intro x y
        apply Ends.of_yields (make_yields [(x, _)] [(y, _)] hf)
        intro bare
        exact Ends.pure (.replace n) bare _
      · -- a lambda stands where another one did
        intro hc p pos hp hat
        have hb := hc.bears ht (ht.attached_parent hn hp) hat
        rw [hk] at hb
        exact hb.imp_right fun ⟨hcond, hpos, _⟩ => ⟨hcond, hpos, false, rfl⟩
      · have hw := hl.weight_eq ht hn
        rw [hk, hlist, slotWeight_some hb, show NodeKind.weight _ = 5 from rfl] at hw
        simp only [NodeKind.slotFactor, NodeKind.listFactor, List.map_cons, List.map_nil,
          List.sum_cons, List.sum_nil] at hw
        simp only [Doc.weight_make, Doc.slotsWeight, NodeKind.slotFactor, NodeKind.listFactor,
          weight_doc, List.map_cons, List.map_nil, List.sum_cons, List.sum_nil]
        rw [show NodeKind.weight _ = 4 from rfl]
        omega
  · cases h

theorem bodyExpr?_eq_some {stmt e : NodeId} (h : bodyExpr? t stmt = some e) :
    t.slot? stmt 0 = some e ∧ (t.kind stmt).admittedAt (.slot 0) = some .expr := by
  unfold bodyExpr? at h
  split at h
  next hk => exact ⟨h, by rw [hk]; rfl⟩
  next hk => exact ⟨(Option.filter_eq_some_iff.mp h).1, by rw [hk]; rfl⟩
  · cases h

theorem lambdaReturnsSingleStatement_descends : Descends lambdaReturnsSingleStatement.planAt := by
  intro v n p ht hl hn h
  simp only [lambdaReturnsSingleStatement.planAt] at h
  split at h
  · cases h
  next hlam =>
    obtain ⟨parenthesized, hk⟩ := isLambda_iff.mp (by simpa using hlam)
    simp only [Option.bind_eq_bind, Option.bind_eq_some_iff] at h
    obtain ⟨body, hb, h⟩ := h
    split at h
    next stmt hkb hlist =>
      obtain ⟨e, he, rfl⟩ := Option.map_eq_some_iff.mp h
      obtain ⟨hes, hadm⟩ := bodyExpr?_eq_some he
      have hba := ht.attached_child hn (child_slot hb)
      have hsc : v.tree.Child stmt body := child_list (by simp [hlist])
      have hE := hl.subExpr_slot ht hba (.single hsc) hadm hes
      have hpar := ht.named (child_slot hb) (attached_alive hn)
      have hplace : ∀ {q pos}, v.tree.parent? body = some q → (v.tree.node q).at? pos = some body →
          v.tree.kind q = .lambda parenthesized ∧ pos = .slot 0 := by
        intro q pos hq hat
        obtain rfl := Option.some.inj (hpar.symm.trans hq)
        have hat' : (v.tree.node n).at? (.slot 0) = some body := hb
        exact ⟨hk, Node.at?_unique (ht.nodup n) hat hat'⟩
      have hD := hE.doc ht hba hl
      refine lift_rewrites ht hl hba hE.below ⟨?_, ?_⟩ ⟨hD.clear, hD.spans, ?_, ?_⟩ (.inl ?_)
      · intro q pos hq hat
        obtain ⟨hkq, rfl⟩ := hplace hq hat
        rw [hkq]
        exact Bool.or_eq_true_iff.mpr (.inl hE.expr)
      · intro hroot
        rw [(ht.root hroot).2] at hpar
        cases hpar
      · intro _ q pos hq hat
        obtain ⟨hkq, rfl⟩ := hplace hq hat
        rw [hkq]
        exact .inl (Nat.zero_le _)
      · intro h
        exact absurd h (Doc.not_target (by rw [ht.kind_doc, hkb]; rfl) (by rw [ht.kind_doc, hkb]; nofun))
      · have hw := hl.weight_le ht hba
        have hw' := hl.weight_le ht (ht.attached_child hba hsc)
        rw [hkb, hlist, show NodeKind.weight .block = 1 from rfl] at hw
        rw [slotWeight_some hes] at hw'
        simp only [List.map_cons, List.map_nil, List.sum_cons, List.sum_nil] at hw
        simp only [weight_doc]
        omega
    · cases h

/-- A method reference stands for a lambda that calls the method on its parameter. -/
theorem referenceParts?_eq_some {ty : NodeId} {cls : String}
    (h : referenceParts? t n = some (ty, cls, name)) :
    (∃ parenthesized, t.kind n = .lambda parenthesized) ∧
      ∃ body r x, t.slot? n 0 = some body ∧ t.kind body = .methodCall name ∧
        t.slot? body 0 = some r ∧ t.kind r = .nameExpr x := by
  simp only [referenceParts?] at h
  split at h
  · cases h
  next hlam =>
    split at h
    next param hlist =>
      simp only [Option.bind_eq_bind, Option.bind_eq_some_iff] at h
      obtain ⟨ty', hty, body, hb, c, hc, r, hr, h⟩ := h
      split at h
      next x y cls' d hkp hargs hkr hkt =>
        split at h
        · cases h
          obtain ⟨hk, hrec, -⟩ := call?_eq_some.mp hc
          exact ⟨isLambda_iff.mp (by simpa using hlam), body, r, y, hb, hk, hrec.trans hr, hkr⟩
        · cases h
      · cases h
    · cases h

theorem lambdaIsMethodReference_descends : Descends lambdaIsMethodReference.planAt := by
  intro v n p ht hl hn h
  simp only [lambdaIsMethodReference.planAt, Option.bind_eq_bind, Option.bind_eq_some_iff,
    Prod.exists] at h
  obtain ⟨ty, cls, method, hp, h⟩ := h
  split at h
  · cases h
  · obtain rfl := Option.some.inj h
    obtain ⟨⟨parenthesized, hk⟩, body, r, x, hb, hkb, hr, hkr⟩ := referenceParts?_eq_some hp
    have hC : (Doc.make (.typeName cls) (v.tree.span n) [] []).Expr v.tree :=
      .leaf (.own hn) rfl rfl rfl
    have hD : (Doc.make (.methodRef method) (v.tree.span n)
        [.make (.typeName cls) (v.tree.span n) [] []] []).Expr v.tree :=
      .make (.own hn) rfl rfl rfl (fun _ => ⟨NodeKind.bears_of_binding rfl, trivial⟩)
        (List.forall_mem_singleton.mpr hC)
    have hx : (v.tree.kind n).isValue = true := by rw [hk]; rfl
    refine Ends.expr_rewrites ht hl hn ?_ hD rfl hx ?_
    · apply Ends.of_yields (make_yields [] [] hC.conforms.fits)
      intro qualifier
      apply Ends.of_yields (make_yields [(qualifier, _)] [] hD.conforms.fits)
      intro reference
      exact Ends.pure (.replace n) reference _
    · have hba := ht.attached_child hn (child_slot hb)
      have hw := hl.weight_le ht hn
      have hwb := hl.weight_call ht hba hkb hr rfl
      have hwr := hl.kind_weight_le ht (ht.attached_child hba (child_slot hr))
      have h4 := NodeKind.four_le_call method
      rw [slotWeight_some hb] at hw
      rw [hkr, show NodeKind.weight _ = 4 from rfl] at hwr
      have hcls : NodeKind.weight (.typeName cls) ≤ 5 := by
        simp only [NodeKind.weight]
        split <;> decide
      simp only [Doc.weight_make, Doc.slotsWeight, NodeKind.slotFactor, List.map_nil, List.sum_nil]
      rw [show NodeKind.weight (.methodRef method) = 4 from rfl]
      omega

theorem streamForEach_descends : Descends streamForEach.planAt := by
  intro v n p ht hl hn h
  simp only [streamForEach.planAt, Option.bind_eq_bind, Option.bind_eq_some_iff] at h
  obtain ⟨c, hc, stream, hs, h⟩ := h
  split at h
  next action hname hargs =>
    simp only [Option.bind_eq_some_iff] at h
    obtain ⟨source, hsource, h⟩ := h
    split at h
    · cases h
    · obtain rfl := Option.some.inj h
      obtain ⟨hk, hrec, hlist⟩ := call?_eq_some.mp hc
      rw [hs] at hrec
      rw [eq_of_beq hname] at hk
      have hS := hl.subExpr_slot ht hn .refl (i := 0) (by rw [hk]; rfl) hrec
      have hA := hl.subExpr_list ht hn .refl (a := action) (by rw [hk]; rfl) (by simp [hlist, hargs])
      have hw := hl.weight_call ht hn hk hrec (hlist.trans hargs)
      obtain ⟨hR, hle⟩ := hl.receiver_of_nullaryCall ht (hS.attached ht hn) hsource
      have hra := hR.attached ht (hS.attached ht hn)
      have hsa := ht.attached_of_within (hS.attached ht hn) (hl.stripParens ht (hS.attached ht hn)).1
      obtain ⟨hks, hrs, -⟩ := nullaryCall?_eq_some.mp hsource
      have hDR := hR.doc ht (hS.attached ht hn) hl
      have hD := Doc.Expr.call (.own hn) "forEach" [v.tree.doc action] hDR
        (fun hc => hc.binding_of_receiver ht hsa hks hrs) (by simpa using hA.doc ht hn hl)
      refine Ends.expr_rewrites ht hl hn ?_ hD rfl (by rw [hk]; rfl) ?_
      · apply copyTwo_ends ht (attached_alive hra) (hA.alive ht hn)
        intro x y
        apply Ends.of_yields (make_yields [(x, _)] [(y, _)] hD.conforms.fits)
        intro call
        exact Ends.pure (.replace n) call _
      · simp only [List.map_cons, List.map_nil, List.sum_cons, List.sum_nil] at hw
        simp only [Doc.weight_make, Doc.slotsWeight, NodeKind.slotFactor, NodeKind.listFactor,
          weight_doc, List.map_cons, List.map_nil, List.sum_cons, List.sum_nil]
        omega
  · cases h

end TreeTidy.Rules
