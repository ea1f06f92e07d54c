import TreeTidy.Print.Source
import TreeTidy.Proofs.Rules.Leftover
import TreeTidy.Proofs.Rules.NestedExpressions
import TreeTidy.Proofs.Rules.Rewriting
import TreeTidy.Proofs.Rules.TypeWord
import TreeTidy.Proofs.Rules.Window
import TreeTidy.Proofs.Tree.Built
/-!
Spans stay nested whatever rule of the library rewrites a tree, but for one: it puts the value that
is assigned under a condition into a choice that covers the condition and the first value only.
-/
namespace TreeTidy.Rules

open SyntaxTree Draft

variable {t : SyntaxTree} {m n p : NodeId}

section TypeWord

theorem localVariableTypeInference_nests : KeepsNested localVariableTypeInference.planAt := by
  intro v n p ht hl hs hn h
  simp only [localVariableTypeInference.planAt] at h
  split at h
  · cases h
  · simp only [Option.bind_eq_bind, Option.bind_eq_some_iff] at h
    obtain ⟨declared, hd, value, -, h⟩ := h
    split at h
    · cases h
    · simp only [Option.bind_eq_some_iff] at h
      obtain ⟨created, -, h⟩ := h
      split at h
      · obtain rfl := Option.some.inj h
        exact leaf_nests hs (ht.attached_child hn (child_slot hd)) _
      · cases h

theorem useDiamondOperator_nests : KeepsNested useDiamondOperator.planAt := by
  intro v n p ht hl hs hn h
  simp only [useDiamondOperator.planAt, Option.bind_eq_bind, Option.bind_eq_some_iff, Prod.exists] at h
  obtain ⟨declared, value, hd, h⟩ := h
  split at h
  · cases h
  · simp only [Option.bind_eq_some_iff] at h
    obtain ⟨created, hc, h⟩ := h
    split at h
    · split at h
      · obtain rfl := Option.some.inj h
        have hva := ht.attached_child hn (declaration?_child hd).2
        exact leaf_nests hs (ht.attached_child hva (child_slot hc)) _
      · cases h
    · cases h

theorem unnecessaryFullyQualifiedName_nests : KeepsNested unnecessaryFullyQualifiedName.planAt := by
  intro v n p ht hl hs hn h
  simp only [unnecessaryFullyQualifiedName.planAt] at h
  split at h
  · split at h
    · cases h
    · obtain rfl := Option.some.inj h
      refine plan_nests (closes_copyAll (v.tree.span n) ?_ fun ps hps => ?_)
      · intro c hc
        have hw := within_list hc
        exact ⟨ht.attached_of_within hn hw, hs.span_within ht hn hw⟩
      · exact closes_whole hs hn _ fun q hq => ⟨List.mem_append_left _ hq, hps q hq⟩
  · split at h
    · cases h
    · obtain rfl := Option.some.inj h
      exact leaf_nests hs hn _
  · cases h

end TypeWord

section Leftover

theorem takeAway_nests (n : NodeId) : (takeAway n).Nests t := ⟨.nil, .remove⟩

theorem emptyStatement_nests : KeepsNested emptyStatement.planAt := by
  intro v n p ht hl hs hn h
  simp only [emptyStatement.planAt] at h
  split at h
  · exact Option.some.inj h ▸ takeAway_nests n
  · cases h

theorem removeExplicitSuperCall_nests : KeepsNested removeExplicitSuperCall.planAt := by
  intro v n p ht hl hs hn h
  simp only [removeExplicitSuperCall.planAt] at h
  split at h
  · cases h
  · simp only [Option.bind_eq_bind, Option.bind_eq_some_iff] at h
    obtain ⟨body, -, h⟩ := h
    split at h
    · exact Option.some.inj h ▸ takeAway_nests n
    · cases h

theorem unnecessaryModifier_nests : KeepsNested unnecessaryModifier.planAt := by
  intro v n p ht hl hs hn h
  simp only [unnecessaryModifier.planAt] at h
  split at h
  · split at h
    · exact Option.some.inj h ▸ takeAway_nests n
    · cases h
  · cases h

theorem unnecessaryImport_nests : KeepsNested unnecessaryImport.planAt := by
  intro v n p ht hl hs hn h
  exact (unnecessaryImport_plan h).1 ▸ takeAway_nests n

end Leftover

section Window

variable (ht : t.Linked) (hs : t.Nested) (hn : t.isAttached n = true)
include ht hs hn

/-- A node and the one after it are in the span of the parent. -/
theorem cover_within_parent (hm : following? t n = some m) (hp : t.parent? n = some p) :
    ((t.span n).cover (t.span m)).Within (t.span p) := by
  obtain ⟨q, i, hq, -, hmi⟩ := (following?_eq_some ht).mp hm
  obtain rfl := Option.some.inj (hp.symm.trans hq)
  have hmp := ht.named (child_list (List.mem_of_getElem? hmi)) (ht.parent_alive hp)
  exact ((hs n hn).2 p hp).cover ((hs m (following?_attached ht hn hm)).2 p hmp)

/-- A new node in the place of two covers them both. -/
theorem closes_two {ctx : List Piece} (kind : NodeKind) {slots : List Piece}
    (hm : following? t n = some m)
    (hc : ∀ q ∈ slots, q ∈ ctx ∧ q.span.Within ((t.span n).cover (t.span m))) :
    Closes t ctx (make kind ((t.span n).cover (t.span m)) slots [] >>= fun q =>
      pure (.splice n 2 q.ref)) := by
  refine .bind (make_nests (Span.start_lt_stop_cover (hs n hn).1 _) ?_ (.refl _)) fun q hq => ?_
  · rwa [List.append_nil]
  · exact closes_splice (.head _) fun p hp => hq.trans (cover_within_parent ht hs hn hm hp)

end Window

theorem unnecessaryLocalBeforeReturn_nests : KeepsNested unnecessaryLocalBeforeReturn.planAt := by
  intro v n p ht hl hs hn h
  simp only [unnecessaryLocalBeforeReturn.planAt] at h
  split at h
  · simp only [Option.bind_eq_bind, Option.bind_eq_some_iff] at h
    obtain ⟨ty, -, value, hv, ret, hr, h⟩ := h
    split at h
    · cases h
    · simp only [Option.bind_eq_some_iff] at h
      obtain ⟨returned, -, h⟩ := h
      split at h
      · cases h
      · obtain rfl := Option.some.inj h
        refine plan_nests (closes_copy hs ht hn (within_slot hv) fun x hx => ?_)
        refine closes_two ht hs hn _ hr (List.forall_mem_singleton.mpr ⟨.head _, ?_⟩)
        exact hx.trans (Span.within_cover_left _ _)
  · cases h

/-- The contrary of a condition does not reach beyond it. -/
theorem contrary_nests {ctx : List Piece} (ht : t.Linked) (hl : t.Laid) (hs : t.Nested)
    (hn : t.isAttached n = true) (ha : t.Within a n) : Nests t ctx (contrary t a) (t.span n) := by
  unfold contrary
  dsimp only
  split
  next operand hk ho =>
    exact copy_nests_within hs ht hn ((within_slot ho).trans (within_stripParens ht hl hn ha))
  · exact .bind (copy_nests_within hs ht hn ha) fun q hq => negate_nests hs (.head _) hq

theorem closes_ite {ctx : List Piece} {cond : Bool} {d e : Draft Piece} {g : Piece → Draft Commit}
    {inner : Span} (h : Nests t ctx (if cond then d else e) inner)
    (hg : ∀ q, q.span.Within inner → Closes t (q :: ctx) (g q)) :
    Closes t ctx (if cond then d >>= g else e >>= g) := by
  cases cond <;> exact .bind h hg

theorem simplifyBooleanReturn_nests : KeepsNested simplifyBooleanReturn.planAt := by
  intro v n p ht hl hs hn h
  simp only [simplifyBooleanReturn.planAt] at h
  split at h
  · simp only [Option.bind_eq_bind, Option.bind_eq_some_iff] at h
    obtain ⟨cond, hc, yes, -, whenTrue, -, last, hlast, h⟩ := h
    split at h
    · cases h
    · obtain rfl := Option.some.inj h
      have hvalue : Nests v.tree []
          (if whenTrue then copy v.tree cond else contrary v.tree cond) (v.tree.span n) := by
        cases whenTrue with
        | true => exact copy_nests_within hs ht hn (within_slot hc)
        | false => exact contrary_nests ht hl hs hn (within_slot hc)
      have hcover := Span.within_cover_left (v.tree.span n) (v.tree.span last)
      cases ho : v.tree.slot? n 2 with
      | some otherwise =>
        -- the second branch is below the node, so the cover is its own span
        obtain rfl : otherwise = last := by simpa [ho] using hlast
        have hlw := hs.span_within ht hn (within_slot ho)
        refine plan_nests (closes_ite hvalue fun value hvw => ?_)
        refine .bind (make_nests (Span.start_lt_stop_cover (hs n hn).1 _)
          (List.forall_mem_singleton.mpr ⟨.head _, hvw.trans hcover⟩) (.refl _)) fun ret hret => ?_
        exact closes_replace (.head _) (hret.trans (Span.Within.cover (.refl _) hlw))
      | none =>
        rw [ho, Option.none_or] at hlast
        refine plan_nests (closes_ite hvalue fun value hvw => ?_)
        exact closes_two ht hs hn _ hlast
          (List.forall_mem_singleton.mpr ⟨.head _, hvw.trans hcover⟩)
  · cases h

end TreeTidy.Rules

/-! What the rewriting makes of a whole tree; it stays nested unless a conditional assignment is
folded into a declaration and the value that is assigned stands beyond the condition. -/
namespace TreeTidy

namespace Doc

variable {d cond yes no : Doc} {kind : NodeKind} {span : Span} {slots : List Doc} {level : Nat}

theorem Nested.make (hs : span.start < span.stop)
    (hc : ∀ c ∈ slots, c.Nested ∧ c.span.Within span) : (Doc.make kind span slots []).Nested := by
  refine .node hs fun c h => ?_
  rcases h with h | h
  · obtain ⟨c, hm, he⟩ := List.mem_map.mp h
    exact Option.some.inj he ▸ hc c hm
  · cases h

theorem Nested.atLevel (h : d.Nested) (level : Nat) :
    (d.atLevel level).Nested ∧ (d.atLevel level).span = d.span := by
  unfold Doc.atLevel
  split
  · exact ⟨.make (All.self h).1 (List.forall_mem_singleton.mpr ⟨h, .refl _⟩), rfl⟩
  · exact ⟨h, rfl⟩

/-- A choice covers the condition and what is chosen otherwise. What is chosen if the condition
holds has to be in between. -/
theorem nested_chosen_iff (hc : cond.Nested) (hy : yes.Nested) (hn : no.Nested) :
    (cond.chosen yes no).Nested ↔ yes.span.Within (cond.span.cover no.span) := by
  constructor
  · exact fun h => (h.child ((child?_make_slot (i := 1)).mpr rfl)).2
  · intro hw
    obtain ⟨ht, hs⟩ := hc.atLevel 2
    refine .make (Span.start_lt_stop_cover (All.self hc).1 _) ?_
    simp only [List.mem_cons, List.not_mem_nil, or_false, forall_eq_or_imp, forall_eq, hs]
    exact ⟨⟨ht, Span.within_cover_left _ _⟩, ⟨hy, hw⟩, hn, Span.within_cover_right _ _⟩

end Doc

namespace SyntaxTree

variable {t u : SyntaxTree} {n p : NodeId} {i count : Nat} {D : Doc}

/-- Where a document that is in the span of the parent is put into a list, it decides whether spans
stay nested. -/
theorem Becomes.nested_iff_of_list (ht : t.Linked) (hs : t.Nested) (hp : t.isAttached p = true)
    (hb : t.Becomes p ((t.doc p).withList (((t.list p).take i).map t.doc ++ [D] ++
      ((t.list p).drop (i + count)).map t.doc)) u) (hD : D.span.Within (t.span p)) :
    u.Nested ↔ D.Nested := by
  obtain ⟨r, hr, hw⟩ := ht.isAttached_iff.mp hp
  obtain ⟨way, hway⟩ := exists_at? hw
  have hlist : (t.doc p).list = (t.list p).map t.doc := by
    rw [ht.doc_eq]
    rfl
  have hroot : u.rootDoc? = some ((t.doc r).put way ((t.doc p).splice i count [D])) := by
    rw [hb.rootDoc hr hway, Doc.splice, hlist, List.map_take, List.map_drop]
  have hat : (t.doc r).at? way = some (t.doc p) := by rw [ht.at?_doc, hway, Option.map_some]
  rw [hb.linked.nested_iff, hroot]
  constructor
  · intro h
    have hx := (h _ rfl).at? (Doc.at?_put hat)
    obtain ⟨pos, hpos⟩ := Doc.exists_child?.mpr (.inr (show D ∈ ((t.doc p).splice i count [D]).list by
      simp [Doc.splice, Doc.withList, Doc.list]))
    exact (hx.child hpos).1
  · intro hn d hd
    obtain rfl := Option.some.inj hd
    refine ((hs.doc ht (ht.attached_root hr)).put hat ((hs.doc ht hp).splice i count ?_) (.refl _)).1
    exact List.forall_mem_singleton.mpr ⟨hn, by rwa [ht.span_doc]⟩

end SyntaxTree

namespace Rules

open SyntaxTree

variable {t : SyntaxTree} {n branch ty start : NodeId} {name : String} {g : GuardedAssign}
  {r : Rule} {x : Edit.Setting} {es : List Event}

/-- The value that is assigned under a condition is not between the condition and the first value. -/
def Astray (t : SyntaxTree) (n : NodeId) : Prop :=
  ∃ start branch g, t.slot? n 1 = some start ∧ following? t n = some branch ∧
    guardedAssign? t branch = some g ∧
      ¬ (t.span g.value).Within ((t.span g.cond).cover (t.span start))

section

variable (ht : t.Linked) (hl : t.Laid) (hs : t.Nested) (hn : t.isAttached n = true)
include ht hl hs hn

theorem nested_foldedDeclaration_iff (hty : t.slot? n 0 = some ty) (hst : t.slot? n 1 = some start)
    (hb : following? t n = some branch) (hg : guardedAssign? t branch = some g) :
    (foldedDeclaration t n branch ty start name g).Nested ↔
      (t.span g.value).Within ((t.span g.cond).cover (t.span start)) := by
  have hba := following?_attached ht hn hb
  obtain ⟨hC, hV, -⟩ := guardedAssign?_sound ht hl hba hg
  have hchosen := Doc.nested_chosen_iff (hs.doc ht (hC.attached ht hba))
    (hs.doc ht (hV.attached ht hba)) (hs.doc ht (ht.attached_child hn (child_slot hst)))
  simp only [ht.span_doc] at hchosen
  rw [← hchosen]
  constructor
  · exact fun h => (h.child ((Doc.child?_make_slot (i := 1)).mpr rfl)).1
  · intro h
    have hcw := hs.span_within ht hba hC.below.to_reflTransGen
    have hsw := hs.span_within ht hn (within_slot hst)
    have htw := hs.span_within ht hn (within_slot hty)
    refine .make (Span.start_lt_stop_cover (hs n hn).1 _) ?_
    simp only [List.mem_cons, List.not_mem_nil, or_false, forall_eq_or_imp, forall_eq, ht.span_doc]
    refine ⟨⟨hs.doc ht (ht.attached_child hn (child_slot hty)),
      htw.trans (Span.within_cover_left _ _)⟩,
      h, ?_⟩
    show ((t.doc g.cond).span.cover (t.doc start).span).Within _
    rw [ht.span_doc, ht.span_doc]
    exact (hcw.trans (Span.within_cover_right _ _)).cover (hsw.trans (Span.within_cover_left _ _))

theorem folding_nested_iff
    (hrev : ((conditionalAssignmentToTernary.act n).runFrom x t es).tree.revision ≠ t.revision) :
    ((conditionalAssignmentToTernary.act n).runFrom x t es).tree.Nested ↔ ¬ Astray t n := by
  obtain ⟨p, i, branch, D, hp, hi, -, ⟨name, ty, start, g, hf, rfl⟩, hu⟩ :=
    conditionalAssignmentToTernary_spliced ht hl hn hrev
  have hst : t.slot? n 1 = some start := hf.starts
  have hb : following? t n = some branch := hf.follows
  have hg : guardedAssign? t branch = some g := hf.assigns
  rw [hu.becomes.nested_iff_of_list ht hs (ht.attached_parent hn hp) (cover_within_parent ht hs hn hb hp),
    nested_foldedDeclaration_iff ht hl hs hn hf.typed hst hb hg]
  constructor
  · rintro hw ⟨start', branch', g', hst', hb', hg', ha⟩
    cases hst.symm.trans hst'
    cases hb.symm.trans hb'
    cases hg.symm.trans hg'
    exact ha hw
  · intro ha
    by_contra hw
    exact ha ⟨start, branch, g, hst, hb, hg, hw⟩

end

/-- The rule plans, and whatever it plans keeps nested spans nested. -/
def PlansNested (r : Rule) : Prop :=
  ∃ info granularity planAt, r = .ofPlan info granularity planAt ∧ KeepsNested planAt

theorem plansNested_of_ne : ∀ r ∈ all, r ≠ conditionalAssignmentToTernary → PlansNested r := by
  simp only [all, List.forall_mem_cons]
  exact ⟨fun _ => ⟨_, _, _, rfl, doubleNegation_nests⟩,
    fun _ => ⟨_, _, _, rfl, booleanLiteralComparison_nests⟩,
    fun _ => ⟨_, _, _, rfl, negatedComparison_nests⟩,
    fun _ => ⟨_, _, _, rfl, redundantParentheses_nests⟩,
    fun _ => ⟨_, _, _, rfl, nullLiteralOnRight_nests⟩,
    fun _ => ⟨_, _, _, rfl, literalsFirstInComparisons_nests⟩,
    fun _ => ⟨_, _, _, rfl, stringIsEmpty_nests⟩,
    fun _ => ⟨_, _, _, rfl, stringToString_nests⟩,
    fun _ => ⟨_, _, _, rfl, stringIndexOfChar_nests⟩,
    fun _ => ⟨_, _, _, rfl, stringReplaceAllLiteral_nests⟩,
    fun _ => ⟨_, _, _, rfl, stringFromString_nests⟩,
    fun _ => ⟨_, _, _, rfl, primitiveWrapperInstantiation_nests⟩,
    fun _ => ⟨_, _, _, rfl, boxedPrimitiveToString_nests⟩,
    fun _ => ⟨_, _, _, rfl, primitiveObjectsEquals_nests⟩,
    fun _ => ⟨_, _, _, rfl, collectionIsEmpty_nests⟩,
    fun _ => ⟨_, _, _, rfl, optionalNotEmpty_nests⟩,
    fun _ => ⟨_, _, _, rfl, streamForEach_nests⟩,
    fun _ => ⟨_, _, _, rfl, longLiteralSuffix_nests⟩,
    fun _ => ⟨_, _, _, rfl, numericLiteralUnderscores_nests⟩,
    fun _ => ⟨_, _, _, rfl, lambdaParenthesesRemoval_nests⟩,
    fun _ => ⟨_, _, _, rfl, lambdaReturnsSingleStatement_nests⟩,
    fun _ => ⟨_, _, _, rfl, lambdaIsMethodReference_nests⟩,
    fun h => absurd rfl h,
    fun _ => ⟨_, _, _, rfl, unnecessaryLocalBeforeReturn_nests⟩,
    fun _ => ⟨_, _, _, rfl, simplifyBooleanReturn_nests⟩,
    fun _ => ⟨_, _, _, rfl, emptyStatement_nests⟩,
    fun _ => ⟨_, _, _, rfl, localVariableTypeInference_nests⟩,
    fun _ => ⟨_, _, _, rfl, useDiamondOperator_nests⟩,
    fun _ => ⟨_, _, _, rfl, unnecessaryModifier_nests⟩,
    fun _ => ⟨_, _, _, rfl, removeExplicitSuperCall_nests⟩,
    fun _ => ⟨_, _, _, rfl, unnecessaryImport_nests⟩,
    fun _ => ⟨_, _, _, rfl, unnecessaryFullyQualifiedName_nests⟩, List.forall_mem_nil _⟩

theorem PlansNested.nested (h : PlansNested r) (hr : Reliable r) (ht : t.Linked) (hl : t.Laid)
    (hs : t.Nested) (hn : t.isAttached n = true) (x : Edit.Setting) (es : List Event) :
    ((r.act n).runFrom x t es).tree.Nested := by
  obtain ⟨info, granularity, planAt, rfl, hk⟩ := h
  have ho := hr.tried ht hl hn x es
  simp only [Rule.ofPlan, Edit.runFrom] at ho ⊢
  split at ho
  next p hp =>
    generalize hrun : p.perform.runFrom x t es = o at ho
    cases ho with
    | idle => exact hs
    | rewritten hu => exact (hk (v := ⟨t, x.resolver, x.rule, x.pass⟩) ht hl hs hn hp).nested ht hs hrun
    | refused => exact hs
  · exact hs

/-- Where a rule of the library rewrites a tree of nested spans, they stay nested; just where it
folds a conditional assignment into a declaration and the assigned value is beyond the condition,
they do not. -/
theorem rewriting_nested_iff (ht : t.Linked) (hl : t.Laid) (hs : t.Nested) (hr : r ∈ all)
    (hn : t.isAttached n = true) (x : Edit.Setting) (es : List Event)
    (hrev : ((r.act n).runFrom x t es).tree.revision ≠ t.revision) :
    ((r.act n).runFrom x t es).tree.Nested ↔
      ¬ (r = conditionalAssignmentToTernary ∧ Astray t n) := by
  by_cases hc : r = conditionalAssignmentToTernary
  · subst hc
    rw [folding_nested_iff ht hl hs hn hrev, and_iff_right rfl]
  · exact iff_of_true ((plansNested_of_ne r hr hc).nested (reliable_all r hr) ht hl hs hn x es)
      fun h => hc h.1

/-- An expression with its place in a text. -/
private abbrev placed (kind : NodeKind) (start stop : Nat) (parts : List Doc) : Doc :=
  .make kind ⟨start, stop⟩ parts []

/-- `!(a == b)` -/
def negatedEquality : UnitDoc := ⟨"T.java", .standard, [], placed (.unary .not) 0 9
  [placed .paren 1 9
    [placed (.binary .eq) 2 8 [placed (.nameExpr "a") 2 3 [], placed (.nameExpr "b") 7 8 []]]]⟩

/-- The comparison that takes the place of the negation covers its operands. -/
theorem negatedEquality_nested : ∃ s u, SourceUnit.ofDoc 1 negatedEquality = .ok s ∧
    ((negatedComparison.act 4).runFrom ⟨.unresolved, "NegatedComparison", 1⟩ s.tree []).tree = u ∧
    u.revision ≠ s.tree.revision ∧ u.print = "a != b" ∧ u.Nested := by
  have hload : SourceUnit.ofDoc 1 negatedEquality = .ok ⟨"T.java", .standard, [], _⟩ := rfl
  have hsound := (SourceUnit.ofDoc_sound hload).1
  refine ⟨_, _, hload, rfl, by decide, rfl, ?_⟩
  refine (rewriting_nested_iff hsound.linked hsound.laid (by decide) (by simp [all]) (by decide) _ _
    (by decide)).mpr ?_
  rintro ⟨-, start, branch, g, hst, -⟩
  cases hst

/-- `{ int x = 0; if (c) x = 1; }` -/
def lateAssignment : UnitDoc := ⟨"T.java", .standard, [], .node .block ⟨0, 30⟩ none []
  [placed (.localVar "x") 2 12
    [placed (.primitiveType .int) 2 5 [], placed (.literal .int "0") 10 11 []],
    .node .ifStmt ⟨13, 28⟩ none [some (placed (.nameExpr "c") 17 18 []),
      some (placed .exprStmt 20 26 [placed (.assign .assign) 20 25
        [placed (.nameExpr "x") 20 21 [], placed (.literal .int "1") 24 25 []]]), none] []]⟩

/-- The choice ends where the condition does, and so before the value that it holds. -/
theorem lateAssignment_not_nested : ∃ s u, SourceUnit.ofDoc 1 lateAssignment = .ok s ∧
    s.tree.Linked ∧ s.tree.Laid ∧ s.tree.Nested ∧ s.tree.isAttached 2 = true ∧
    ((conditionalAssignmentToTernary.act 2).runFrom
      ⟨.scope .empty, "ConditionalAssignmentToTernary", 1⟩ s.tree []).tree = u ∧
    u.revision ≠ s.tree.revision ∧ u.print = "\x7b\n    int x = c ? 1 : 0;\n\x7d" ∧ ¬ u.Nested := by
  have hload : SourceUnit.ofDoc 1 lateAssignment = .ok ⟨"T.java", .standard, [], _⟩ := rfl
  have hsound := (SourceUnit.ofDoc_sound hload).1
  refine ⟨_, _, hload, hsound.linked, hsound.laid, by decide, by decide, rfl, ?_, ?_, ?_⟩
  · decide +kernel
  · decide +kernel
  · decide +kernel

end Rules

end TreeTidy
