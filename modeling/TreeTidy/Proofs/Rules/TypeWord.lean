import Mathlib.Data.List.TakeWhile
import TreeTidy.Proofs.Rules.Descends
import TreeTidy.Rules.TypeWord
/-! The rules that write types shorter lead downwards. -/
namespace TreeTidy.Rules

open SyntaxTree Draft

variable {t : SyntaxTree} {n declared value : NodeId} {k : NodeKind} {span : Span} {name : String}

theorem isClassType_iff : isClassType k = true ↔ ∃ name diamond, k = .classType name diamond := by
  cases k <;> simp [isClassType]

theorem two_le_classType (name : String) (diamond : Bool) :
    2 ≤ NodeKind.weight (.classType name diamond) := by
  simp only [NodeKind.weight]
  split <;> decide

theorem not_isQualified_simpleName (name : String) :
    ¬ Name.isQualified (Name.simpleName name) = true := by
  rw [Name.isQualified, Name.simpleName, String.toList_ofList, Name.afterLastDot]
  intro h
  rw [List.contains_eq_mem, decide_eq_true_eq, List.mem_reverse] at h
  simpa using List.mem_takeWhile_imp h

theorem binding_of_type (hk : k.category = .type) : k.binding = 13 := by
  cases k <;> first | rfl | cases hk

theorem not_writes_of_type (hk : k.category = .type) : k.writes = false := by
  cases k <;> first | rfl | cases hk

theorem not_variable_of_type (hk : k.category = .type) : k.isVariable = false ∧ k ≠ .paren := by
  cases k <;> first | exact ⟨rfl, NodeKind.noConfusion⟩ | cases hk

/-- Types with arguments that are types. -/
theorem fits_classType {args : List Doc} {diamond : Bool} (h : ∀ a ∈ args, a.kind.category = .type) :
    (Doc.make (.classType name diamond) span [] args).Fits := by
  refine ⟨.nil, nofun, ?_⟩
  rintro _ ⟨⟩
  refine ⟨Nat.zero_le _, ?_⟩
  intro k hk
  obtain ⟨a, ha, rfl⟩ := List.mem_map.mp hk
  exact beq_iff_eq.mpr (h a ha)

section

variable (ht : t.Linked) (hl : t.Laid) (hn : t.isAttached n = true)
include ht hl hn

/-- A type takes the place of a heavier one. -/
theorem type_rewrites {d : Draft Commit} {D : Doc} (h : d.Ends t [] (.replace n) D) (hD : D.Proper t)
    (hk : D.kind.category = .type) (hx : (t.kind n).category = .type) (hw : D.weight < t.weight n) :
    (plan d).Rewrites t := by
  obtain ⟨hv, hp⟩ := not_variable_of_type hx
  refine h.replace_rewrites ht hl hn hD.conforms (hl.takes ht hn (hk.trans hx.symm) ?_)
    (suits_of_binding ht hD (binding_of_type hk) hv hp) (.inl hw)
  intro hb
  rw [hb] at hx
  cases hx

theorem leafType_rewrites (hf : (Doc.make k (t.span n) [] []).Fits) (hk : k.category = .type)
    (hx : (t.kind n).category = .type) (hw : k.weight < t.weight n) :
    (Plan.mk [.make k (t.span n) [] []] (.replace n (.new 0))).Rewrites t := by
  refine type_rewrites (d := make k (t.span n) [] [] >>= fun q => pure (.replace n q.ref))
    (D := Doc.make k (t.span n) [] []) ht hl hn ?_
    (.make hf (.own hn) (not_writes_of_type hk) (fun _ => trivial) (List.forall_mem_nil _)
      (List.forall_mem_nil _)) hk hx ?_
  · exact Ends.of_yields (make_yields [] [] hf) fun q => Ends.pure (.replace n) q _
  · simpa [Doc.weight_make, Doc.slotsWeight] using hw

/-- The arguments of a type are types, and weigh something. -/
theorem typeArgument {a : NodeId} {diamond : Bool} (hk : t.kind n = .classType name diamond)
    (ha : a ∈ t.list n) : t.isAttached a = true ∧ (t.kind a).category = .type ∧ 0 < t.weight a := by
  have hadm := hl.admits_list ht hn ha
  rw [hk] at hadm
  have haa := ht.attached_child hn (child_list ha)
  have hcat : (t.kind a).category = .type := eq_of_beq hadm
  refine ⟨haa, hcat, Nat.lt_of_lt_of_le ?_ (hl.kind_weight_le ht haa)⟩
  generalize t.kind a = k at hcat
  cases k with
  | classType name diamond => exact Nat.lt_of_lt_of_le Nat.two_pos (two_le_classType _ _)
  | _ => first | exact Nat.one_pos | cases hcat

end

theorem localVariableTypeInference_descends : Descends localVariableTypeInference.planAt := by
  intro v n p ht hl hn h
  simp only [localVariableTypeInference.planAt] at h
  split at h
  · cases h
  · simp only [Option.bind_eq_bind, Option.bind_eq_some_iff] at h
    obtain ⟨declared, hd, value, -, h⟩ := h
    split at h
    · cases h
    next hc =>
      simp only [Option.bind_eq_some_iff] at h
      obtain ⟨created, -, h⟩ := h
      split at h
      · obtain rfl := Option.some.inj h
        simp only [Bool.or_eq_true, Bool.not_eq_true', not_or, Bool.not_eq_false] at hc
        obtain ⟨name, diamond, hk⟩ := isClassType_iff.mp hc.1
        have hda := ht.attached_child hn (child_slot hd)
        have hw := hl.kind_weight_le ht hda
        have h2 := two_le_classType name diamond
        rw [hk] at hw
        refine leafType_rewrites ht hl hda ⟨.nil, fun _ => rfl, fun _ h => by cases h⟩ rfl
          (by rw [hk]; rfl) ?_
        rw [show NodeKind.weight .varType = 1 from rfl]
        omega
      · cases h

theorem declaration?_child (h : declaration? t n = some (declared, value)) :
    t.Child declared n ∧ t.Child value n := by
  simp only [declaration?, Option.bind_eq_bind, Option.pure_def] at h
  split at h <;> simp only [Option.bind_some, Option.bind_none, Option.bind_eq_some_iff] at h
  · obtain ⟨a, ha, b, hb, he⟩ := h
    cases he
    exact ⟨child_slot ha, child_slot hb⟩
  · obtain ⟨a, ha, b, hb, he⟩ := h
    cases he
    exact ⟨child_slot ha, child_slot hb⟩
  · cases h

theorem useDiamondOperator_descends : Descends useDiamondOperator.planAt := by
  intro v n p ht hl hn h
  simp only [useDiamondOperator.planAt, Option.bind_eq_bind, Option.bind_eq_some_iff, Prod.exists] at h
  obtain ⟨declared, value, hd, h⟩ := h
  split at h
  · cases h
  · simp only [Option.bind_eq_some_iff] at h
    obtain ⟨created, hc, h⟩ := h
    split at h
    next name diamond hk =>
      split at h
      next hpar =>
        obtain rfl := Option.some.inj h
        simp only [isParameterized, Bool.and_eq_true, Bool.not_eq_true'] at hpar
        have hva := ht.attached_child hn (declaration?_child hd).2
        have hca := ht.attached_child hva (child_slot hc)
        have hw := hl.weight_le ht hca
        obtain ⟨a, rest, hargs⟩ : ∃ a rest, v.tree.list created = a :: rest := by
          cases hargs : v.tree.list created with
          | nil =>
            rw [hargs] at hpar
            cases hpar.2
          | cons a rest => exact ⟨a, rest, rfl⟩
        have ha := (typeArgument ht hl hca hk (a := a) (by simp [hargs])).2.2
        rw [hk, hargs, List.map_cons, List.sum_cons] at hw
        apply leafType_rewrites ht hl hca (fits_classType (List.forall_mem_nil _)) rfl (by rw [hk]; rfl)
        have he : NodeKind.weight (.classType name true) = NodeKind.weight (.classType name diamond) := rfl
        omega
      · cases h
    · cases h

section

variable (ht : t.Linked) (hl : t.Laid) (hn : t.isAttached n = true)
include ht hl hn

/-- A qualified type gives way to its simple name over copies of its arguments. -/
theorem shortClassType_rewrites {diamond : Bool} (hk : t.kind n = .classType name diamond)
    (hq : Name.isQualified name = true) : (plan do
      let args ← copyAll t (t.list n)
      let short ← make (.classType (Name.simpleName name) diamond) (t.span n) [] args
      pure (.replace n short.ref)).Rewrites t := by
  have harg := fun a ha => typeArgument ht hl hn (a := a) hk ha
  have hf : (Doc.make (.classType (Name.simpleName name) diamond) (t.span n) []
      ((t.list n).map t.doc)).Fits := by
    apply fits_classType
    intro a ha
    obtain ⟨b, hb, rfl⟩ := List.mem_map.mp ha
    rw [ht.kind_doc]
    exact (harg b hb).2.1
  refine type_rewrites ht hl hn ?_ (.make hf (.own hn) rfl (fun _ => trivial) (List.forall_mem_nil _) ?_)
    rfl (by rw [hk]; rfl) ?_
  · refine Ends.copyAll ht (fun a ha => attached_alive (harg a ha).1) ?_
    intro qs hqs
    refine Ends.of_yields ?_ fun short => Ends.pure (.replace n) short _
    rw [← hqs] at hf ⊢
    exact make_yields [] qs hf
  · intro d hd
    obtain ⟨b, hb, rfl⟩ := List.mem_map.mp hd
    exact hl.proper ht (harg b hb).1
  · have hw := hl.weight_le ht hn
    rw [hk, NodeKind.weight, if_pos hq] at hw
    rw [Doc.weight_make, NodeKind.weight, if_neg (not_isQualified_simpleName name), List.map_map]
    simp only [Doc.slotsWeight, NodeKind.listFactor]
    have he : (t.list n).map (Doc.weight ∘ t.doc) = (t.list n).map t.weight := rfl
    rw [he]
    omega

theorem shortTypeName_rewrites (hk : t.kind n = .typeName name) (hq : Name.isQualified name = true) :
    (plan do
      let short ← make (.typeName (Name.simpleName name)) (t.span n) [] []
      pure (.replace n short.ref)).Rewrites t := by
  have hD : (Doc.make (.typeName (Name.simpleName name)) (t.span n) [] []).Expr t :=
    .leaf (.own hn) rfl rfl rfl
  refine Ends.expr_rewrites ht hl hn ?_ hD rfl (by rw [hk]; rfl) ?_
  · exact Ends.of_yields (make_yields [] [] hD.conforms.fits) fun q => Ends.pure (.replace n) q _
  · have hw := hl.kind_weight_le ht hn
    rw [hk, NodeKind.weight, if_pos hq] at hw
    rw [Doc.weight_make, NodeKind.weight, if_neg (not_isQualified_simpleName name)]
    simp only [Doc.slotsWeight, List.map_nil, List.sum_nil]
    omega

end

theorem unnecessaryFullyQualifiedName_descends : Descends unnecessaryFullyQualifiedName.planAt := by
  intro v n p ht hl hn h
  simp only [unnecessaryFullyQualifiedName.planAt] at h
  split at h
  next name diamond hk =>
    split at h
    · cases h
    next hvis =>
      obtain rfl := Option.some.inj h
      simp only [isVisibleAs, Bool.not_eq_true', Bool.and_eq_false_iff, not_or, Bool.not_eq_false] at hvis
      exact shortClassType_rewrites ht hl hn hk hvis.1
  next name hk =>
    split at h
    · cases h
    next hvis =>
      obtain rfl := Option.some.inj h
      simp only [isVisibleAs, Bool.not_eq_true', Bool.and_eq_false_iff, not_or, Bool.not_eq_false] at hvis
      exact shortTypeName_rewrites ht hl hn hk hvis.1
  next => cases h

end TreeTidy.Rules
