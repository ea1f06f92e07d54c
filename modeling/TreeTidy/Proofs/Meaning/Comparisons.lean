import TreeTidy.Print.Source
import TreeTidy.Proofs.Meaning.Interpreter
import TreeTidy.Proofs.Rules.Negation
/-!
The rules on comparisons keep the meaning of expressions: what takes the place of an expression gives the
same value or the same exception, and leaves the same state. All of them ask for types where it
matters. The rule on double negations asks for none, and where the operand is `null` it does not.
-/
namespace TreeTidy.Meaning

open SyntaxTree Rules

variable {σ ε ρ φ : Type} [DecidableEq ρ]

namespace World

variable (w : World ε ρ φ) {l r : Run σ ε (Value ρ φ)} {op op' : BinaryOp}

/-- A comparison and its contrary, run after run. -/
theorem negating_comparing (h : op.negated? = some op')
    (hl : l.Yields fun x => op.isRelational = true → x.IsWhole)
    (hr : r.Yields fun y => op.isRelational = true → y.IsWhole) :
    w.negating (w.comparing op l r) = w.comparing op' l r := by
  simp only [negating, comparing, bind_assoc]
  refine hl.bind_congr fun x hx => hr.bind_congr fun y hy => ?_
  rw [w.compare_negated h hx hy]
  cases w.compare op x y <;> rfl

/-- A boolean held against a literal is that boolean or its negation. -/
theorem comparing_literal (h : op.isEquality = true) (hl : l.Yields (Value.OfType .boolean))
    (b : Bool) : w.comparing op l (pure (.bool b)) = if (op == .eq) == b then l else w.negating l := by
  have hc : ∀ x, Value.OfType .boolean x →
      (.ofExcept (.bool <$> w.compare op x (.bool b)) : Run σ ε (Value ρ φ)) =
        if (op == .eq) == b then pure x else .ofExcept (w.negation x) := by
    intro x hx
    obtain ⟨c, rfl⟩ := Value.ofType_boolean hx
    rw [compare_bool, if_pos h]
    cases op == .eq <;> cases b <;> cases c <;> rfl
  simp only [comparing, pure_bind]
  rw [hl.bind_congr hc]
  split
  · exact bind_pure l
  · rfl

/-- What a value is compared with can be on either side of it. -/
theorem comparing_swap {P : Value ρ φ → Prop} {x : Value ρ φ} (hr : r.Yields P)
    (hx : ∀ y, P y → w.compare op x y = w.compare op' y x) :
    w.comparing op (pure x) r = w.comparing op' r (pure x) := by
  simp only [comparing, pure_bind]
  exact hr.bind_congr fun y hy => by rw [hx y hy]

/-- A count held against a bound that only nothing, or only something, meets. -/
theorem comparing_count {bound : Int} {empty : Bool} {test : Run σ ε (Value ρ φ)}
    (h : emptinessOf op bound = some empty) (hl : l.Yields Value.IsCount)
    (ht : test = l >>= fun count => pure (.bool count.isZero)) :
    w.comparing op l (pure (.int bound)) = if empty then test else w.negating test := by
  have hc : ∀ x, Value.IsCount x →
      (.ofExcept (.bool <$> w.compare op x (.int bound)) : Run σ ε (Value ρ φ)) =
        pure (.bool (x.isZero == empty)) := by
    intro x hx
    rw [w.compare_count h hx]
    rfl
  simp only [comparing, pure_bind]
  rw [hl.bind_congr hc, ht]
  cases empty with
  | true => simp
  | false =>
    rw [if_neg Bool.false_ne_true, negating, bind_assoc]
    simp only [pure_bind, negation_bool, Run.ofExcept_ok, beq_false]

end World

/-- Whatever the rule puts in the place of an expression, means the same. -/
def Keeps (E : Evaluator σ ε ρ φ) (planAt : View → NodeId → Option Plan) : Prop :=
  ∀ ⦃v n p⦄, v.tree.Linked → v.tree.Laid → v.tree.isAttached n = true → E.Respects v n →
    planAt v n = some p → ∃ D, E.eval D = E.eval (v.tree.doc n) ∧ p.Puts v.tree n D

variable (E : Evaluator σ ε ρ φ)

theorem booleanLiteralComparison_keeps : Keeps E booleanLiteralComparison.planAt := by
  intro v n p ht hl hn hE h
  obtain ⟨op, a, b, operand, literal, hk, hop, ha, hb, hc, hprim, hp⟩ :=
    booleanLiteralComparison_puts ht hl hn h
  obtain ⟨hA, hB⟩ := operands_of_binary ht hl hn hk ha hb
  refine ⟨_, ?_, hp⟩
  rw [E.eval_placedAt, E.eval_comparison ht hk (.inl hop) ha hb, E.eval_ite_negated]
  rcases literalComparison?_cases hc with ⟨rfl, hlit⟩ | ⟨rfl, hlit⟩
  · have hy := hE.typed hA.below.to_reflTransGen hA.expr hprim (by decide)
    rw [E.eval_booleanLiteral ht hlit, E.world.comparing_literal hop hy]
  · have hy := hE.typed hB.below.to_reflTransGen hB.expr hprim (by decide)
    have hswap : ∀ y, Value.OfType .boolean y →
        E.world.compare op (.bool literal) y = E.world.compare op y (.bool literal) := by
      intro y hy
      obtain ⟨c, rfl⟩ := Value.ofType_boolean hy
      rw [World.compare_bool, World.compare_bool, Bool.beq_comm (a := literal)]
    rw [E.eval_booleanLiteral ht hlit, E.world.comparing_swap hy hswap,
      E.world.comparing_literal hop hy]

theorem negatedComparison_keeps : Keeps E negatedComparison.planAt := by
  intro v n p ht hl hn hE h
  obtain ⟨c, op, negated, a, b, hc, hk, hneg, ha, hb, hint, hp⟩ := negatedComparison_puts ht hl hn h
  obtain ⟨-, hC, -⟩ := operand_of_negation ht hl hn hc
  obtain ⟨hA, hB⟩ := operands_of_binary ht hl (hC.attached ht hn) hk ha hb
  have hop := BinaryOp.isComparison_of_negated? hneg
  -- an ordered comparison is turned around on whole numbers only
  have hwhole : ∀ {m}, v.tree.SubExpr c m →
      (op.isRelational = true → (v.primitive? m).any Primitive.isIntegral = true) →
      (E.eval (v.tree.doc m)).Yields fun x => op.isRelational = true → x.IsWhole := by
    intro m hm hi s x s' hx hrel
    obtain ⟨q, hq, hqi⟩ := (Option.any_eq_true _ _).mp (hi hrel)
    have hw : v.tree.Within m n := hm.below.to_reflTransGen.trans hC.below.to_reflTransGen
    have hvoid : q ≠ .void := by
      rintro rfl
      cases hqi
    obtain ⟨k, rfl⟩ := Value.ofType_integral (hE.typed hw hm.expr hq hvoid s x s' hx) hqi
    exact ⟨q, k, rfl⟩
  have hboth : op.isRelational = true → (v.primitive? a).any Primitive.isIntegral = true ∧
      (v.primitive? b).any Primitive.isIntegral = true :=
    fun hrel => Bool.and_eq_true_iff.mp (hint hrel)
  refine ⟨_, ?_, hp⟩
  rw [E.eval_placedAt, E.eval_joined hop.2, E.eval_negatedOperand ht hc,
    E.eval_comparison ht hk hop.1 ha hb]
  exact (E.world.negating_comparing hneg (hwhole hA fun hrel => (hboth hrel).1)
    (hwhole hB fun hrel => (hboth hrel).2)).symm

theorem nullLiteralOnRight_keeps : Keeps E nullLiteralOnRight.planAt := by
  intro v n p ht hl hn hE h
  obtain ⟨op, a, b, hk, hop, ha, hb, hnull, -, hp⟩ := nullLiteralOnRight_puts ht hl hn h
  have htrue : (E.eval (v.tree.doc b)).Yields fun _ => True := fun _ _ _ _ => trivial
  refine ⟨_, ?_, hp⟩
  rw [E.eval_placedAt, E.eval_joined (.inl hop), E.eval_comparison ht hk (.inl hop) ha hb,
    E.eval_nullLiteral ht hnull]
  exact (E.world.comparing_swap htrue fun y _ => E.world.compare_null hop y).symm

/-- A test for emptiness by a count means what the test by name does. -/
theorem emptinessTest_keeps {v : View} {n r : NodeId} {method : String} {empty : Bool}
    (ht : v.tree.Linked) (hl : v.tree.Laid) (hn : v.tree.isAttached n = true) (hE : E.Respects v n)
    (h : v.tree.emptinessTest? n method = some (r, empty)) (hc : v.Counts method r) :
    E.eval (if empty then (v.tree.doc r).calledOn "isEmpty"
      else ((v.tree.doc r).calledOn "isEmpty").negated) = E.eval (v.tree.doc n) := by
  have hr := (receiver_of_emptinessTest ht hl hn h).2.1.below.to_reflTransGen
  have hnew := Doc.calls_calledOn (v.tree.doc r) "isEmpty"
  -- whichever operand counts, the test by name is on what it gives
  have hcount : ∀ {m}, v.tree.nullaryCall? (v.tree.stripParens m) method = some r →
      (E.eval (v.tree.doc m)).Yields Value.IsCount ∧
      E.eval ((v.tree.doc r).calledOn "isEmpty") =
        E.eval (v.tree.doc m) >>= fun count => pure (.bool count.isZero) := by
    intro m hm
    have hcall := ht.calls_doc hm
    rw [← E.eval_stripParens ht m]
    exact ⟨hE.counted hr hc hcall, hE.emptied hr hc hcall hnew⟩
  rw [E.eval_ite_negated]
  obtain ⟨op, a, b, hk, ha, hb, ⟨hcall, bound, hlit, hop⟩ | ⟨hcall, bound, flipped, hlit, hflip, hop⟩⟩ :=
    emptinessTest?_cases h
  · obtain ⟨hy, htest⟩ := hcount hcall
    rw [E.eval_comparison ht hk (BinaryOp.isComparison_of_emptinessOf hop) ha hb,
      E.eval_intLiteral ht hlit (BinaryOp.bound_of_emptinessOf hop),
      E.world.comparing_count hop hy htest]
  · obtain ⟨hy, htest⟩ := hcount hcall
    have hswap : ∀ y : Value ρ φ, y.IsCount →
        E.world.compare op (.int bound) y = E.world.compare flipped y (.int bound) :=
      fun y hy => E.world.compare_flipped hflip hy.isWhole ⟨_, _, rfl⟩
    rw [E.eval_comparison ht hk (BinaryOp.isComparison_of_flipped? hflip) ha hb,
      E.eval_intLiteral ht hlit (BinaryOp.bound_of_emptinessOf hop), E.world.comparing_swap hy hswap,
      E.world.comparing_count hop hy htest]

theorem stringIsEmpty_keeps : Keeps E stringIsEmpty.planAt := by
  intro v n p ht hl hn hE h
  simp only [stringIsEmpty.planAt, Option.bind_eq_bind, Option.bind_eq_some_iff, Prod.exists] at h
  obtain ⟨r, empty, hr, h⟩ := h
  split at h
  next hs =>
    obtain rfl := Option.some.inj h
    refine ⟨_, ?_, putEmptinessTest_puts ht hl hn hr⟩
    rw [E.eval_placedAt]
    exact emptinessTest_keeps E ht hl hn hE hr (.inl ⟨rfl, hs⟩)
  · cases h

theorem collectionIsEmpty_keeps : Keeps E collectionIsEmpty.planAt := by
  intro v n p ht hl hn hE h
  simp only [collectionIsEmpty.planAt, Option.bind_eq_bind, Option.bind_eq_some_iff, Prod.exists] at h
  obtain ⟨r, empty, hr, h⟩ := h
  split at h
  next hs =>
    obtain rfl := Option.some.inj h
    refine ⟨_, ?_, putEmptinessTest_puts ht hl hn hr⟩
    rw [E.eval_placedAt]
    exact emptinessTest_keeps E ht hl hn hE hr (.inr ⟨rfl, hs⟩)
  · cases h

/-- Values that `==` compares as `Objects.equals` does. -/
theorem objectsEqual_eq {p : Primitive} (hp : (p.isIntegral || p == .boolean) = true)
    {x y : Value ρ φ} (hx : x.OfType p) (hy : y.OfType p) :
    E.objectsEqual x y = .ofExcept (.bool <$> E.world.compare .eq x y) := by
  rcases Bool.or_eq_true_iff.mp hp with hi | hb
  · obtain ⟨m, rfl⟩ := Value.ofType_integral hx hi
    obtain ⟨k, rfl⟩ := Value.ofType_integral hy hi
    exact E.objectsEqual_whole p m k
  · obtain rfl := eq_of_beq hb
    obtain ⟨a, rfl⟩ := Value.ofType_boolean hx
    obtain ⟨b, rfl⟩ := Value.ofType_boolean hy
    exact E.objectsEqual_bool a b

theorem primitiveObjectsEquals_keeps : Keeps E primitiveObjectsEquals.planAt := by
  intro v n p ht hl hn hE h
  obtain ⟨r, a, b, cls, hc, hcls, hobjects, hcomp, hp⟩ := primitiveObjectsEquals_puts ht hl hn h
  obtain ⟨hk, -, hlist⟩ := staticPair?_eq_some hc
  have hA := hl.subExpr_list ht hn .refl (a := a) (by rw [hk]; rfl) (by simp [hlist])
  have hB := hl.subExpr_list ht hn .refl (a := b) (by rw [hk]; rfl) (by simp [hlist])
  unfold areComparable at hcomp
  split at hcomp
  next q hq =>
    obtain ⟨hqt, hqb⟩ := Bool.and_eq_true_iff.mp hcomp
    have hvoid : q ≠ .void := by
      rintro rfl
      cases hqt
    have hyA := hE.typed hA.below.to_reflTransGen hA.expr hq hvoid
    have hyB := hE.typed hB.below.to_reflTransGen hB.expr (eq_of_beq hqb) hvoid
    refine ⟨_, ?_, hp⟩
    rw [E.eval_placedAt, E.eval_joined (.inl rfl), hE.equated .refl hc hcls hobjects]
    refine (hyA.bind_congr fun x hx => ?_).symm
    exact hyB.bind_congr fun y hy => objectsEqual_eq E hqt hx hy
  · cases hcomp

/-- The rules that simplify comparisons by the types of what is compared. -/
def comparisonRules : List Rule :=
  [booleanLiteralComparison, negatedComparison, nullLiteralOnRight, stringIsEmpty,
    collectionIsEmpty, primitiveObjectsEquals]

theorem comparisonRules_keep : ∀ r ∈ comparisonRules,
    ∃ info granularity planAt, r = .ofPlan info granularity planAt ∧ Keeps E planAt := by
  simp only [comparisonRules, List.forall_mem_cons, List.not_mem_nil, false_implies, implies_true,
    and_true]
  exact ⟨⟨_, _, _, rfl, booleanLiteralComparison_keeps E⟩,
    ⟨_, _, _, rfl, negatedComparison_keeps E⟩,
    ⟨_, _, _, rfl, nullLiteralOnRight_keeps E⟩,
    ⟨_, _, _, rfl, stringIsEmpty_keeps E⟩,
    ⟨_, _, _, rfl, collectionIsEmpty_keeps E⟩,
    ⟨_, _, _, rfl, primitiveObjectsEquals_keeps E⟩⟩

/-- Where one of the rules changes a tree, an expression takes the place of another one that means the
same: from every state, it gives the same value or exception and leaves the same state. -/
theorem comparisons_keep_meaning {t : SyntaxTree} {n : NodeId} {r : Rule} (ht : t.Linked)
    (hl : t.Laid) (hn : t.isAttached n = true) (hr : r ∈ comparisonRules) (x : Edit.Setting)
    (es : List Event) (hE : E.Respects ⟨t, x.resolver, x.rule, x.pass⟩ n)
    (hrev : ((r.act n).runFrom x t es).tree.revision ≠ t.revision) :
    ∃ D, (∀ s, (E.eval D).outcome s = (E.eval (t.doc n)).outcome s) ∧
      t.Becomes n D ((r.act n).runFrom x t es).tree := by
  obtain ⟨info, granularity, planAt, rfl, hkeeps⟩ := comparisonRules_keep E r hr
  refine Rule.becomes_of_puts hrev fun p hp => ?_
  obtain ⟨D, hD, hputs⟩ := hkeeps (v := ⟨t, x.resolver, x.rule, x.pass⟩) ht hl hn hE hp
  exact ⟨D, fun s => by rw [hD], hputs⟩

section Witness

open Interpreter

/-- `!(1 / 0 < 2)` -/
def negatedFailure : Doc := plain (.unary .not) [plain .paren [plain (.binary .lt)
  [plain (.binary .div) [number "1", number "0"], number "2"]]]

abbrev negatedFailureView : View := ⟨treeOf negatedFailure, .scope .empty, "NegatedComparison", 1⟩

/-- The division fails, and with it all that it is part of. -/
theorem eval_negatedFailure : ∀ m ∈ [6, 5, 4, 2],
    eval ((treeOf negatedFailure).doc m) = .ofExcept (.error .zeroDivisor) := by
  have one : eval (number "1") = pure (.int 1) := eval_number (by decide +kernel)
  have zero : eval (number "0") = pure (.int 0) := eval_number (by decide +kernel)
  have quotient : eval ((treeOf negatedFailure).doc 2) = .ofExcept (.error .zeroDivisor) := by
    refine Run.ext fun s => ?_
    have hone : (eval (number "1")).outcome s = (.ok (.int 1), s) := by rw [one, Run.outcome_pure]
    have hzero : (eval (number "0")).outcome s = (.ok (.int 0), s) := by rw [zero, Run.outcome_pure]
    exact eval_zeroDivisor rfl (.inl rfl) rfl rfl hone hzero
  have comparison : eval ((treeOf negatedFailure).doc 4) = .ofExcept (.error .zeroDivisor) :=
    congrArg (world.comparing .lt · (eval (number "2"))) quotient
  have negation : eval ((treeOf negatedFailure).doc 6) = .ofExcept (.error .zeroDivisor) :=
    congrArg world.negating comparison
  simp only [List.forall_mem_cons, List.not_mem_nil, false_implies, implies_true, and_true]
  exact ⟨negation, comparison, comparison, quotient⟩

theorem negatedFailure_respects : execution.Respects negatedFailureView 6 := by
  have hnodes : ∀ {m}, (treeOf negatedFailure).Within m 6 → m ∈ [6, 5, 4, 2, 0, 1, 3] :=
    fun h => mem_descendants_iff.mpr h
  have hnumber : ∀ {text k p}, intOf? text = some k → some Primitive.int = some p →
      (eval (number text)).Yields (Value.OfType p) := by
    intro text k p h hp
    cases hp
    rw [eval_number h]
    exact .pure ⟨rfl, rfl⟩
  have htyped : ∀ m ∈ [6, 5, 4, 2, 0, 1, 3], ∀ p, negatedFailureView.primitive? m = some p →
      (eval ((treeOf negatedFailure).doc m)).Yields (Value.OfType p) := by
    intro m hm p hp
    rcases List.mem_append.mp (show m ∈ [6, 5, 4, 2] ++ [0, 1, 3] from hm) with hm | hm
    · rw [eval_negatedFailure m hm]
      exact .ofExcept fun x hx => by cases hx
    · simp only [List.mem_cons, List.not_mem_nil, or_false] at hm
      rcases hm with rfl | rfl | rfl
      · exact hnumber (k := 1) (by decide +kernel) hp
      · exact hnumber (k := 0) (by decide +kernel) hp
      · exact hnumber (k := 2) (by decide +kernel) hp
  have huncounted : ∀ m ∈ [6, 5, 4, 2, 0, 1, 3],
      negatedFailureView.isString m = false ∧ isSized negatedFailureView m = false := by decide
  have hcounts : ∀ {method m}, (treeOf negatedFailure).Within m 6 →
      ¬ negatedFailureView.Counts method m := by
    rintro method m hm (⟨-, hc⟩ | ⟨-, hc⟩)
    · rw [(huncounted m (hnodes hm)).1] at hc
      cases hc
    · rw [(huncounted m (hnodes hm)).2] at hc
      cases hc
  have hpairs : ∀ m ∈ [6, 5, 4, 2, 0, 1, 3],
      staticPair? (treeOf negatedFailure) m "equals" = none := by decide
  constructor
  · intro m p hm _ hp _
    exact htyped m (hnodes hm) p hp
  · intro r method d hr hc
    exact absurd hc (hcounts hr)
  · intro r method d e hr hc
    exact absurd hc (hcounts hr)
  · intro c r a b cls hc hs
    rw [hpairs c (hnodes hc)] at hs
    cases hs

/-- What failed before the negation was folded fails after it, and as it did. -/
theorem negatedFailure_keeps_meaning : ∃ u D, (treeOf negatedFailure).Becomes 6 D u ∧
    ((negatedComparison.act 6).runFrom ⟨.scope .empty, "NegatedComparison", 1⟩
      (treeOf negatedFailure) []).tree = u ∧
    u.print = "1 / 0 >= 2" ∧ ∀ s, (eval D).outcome s = (.error .zeroDivisor, s) := by
  have hsound := treeOf_sound (d := negatedFailure) rfl
  obtain ⟨D, hD, hu⟩ := comparisons_keep_meaning execution.toEvaluator hsound.linked hsound.laid
    (n := 6) (by decide) (r := negatedComparison) (by simp [comparisonRules])
    ⟨.scope .empty, "NegatedComparison", 1⟩ [] negatedFailure_respects (by decide)
  refine ⟨_, D, hu, rfl, by decide +kernel, fun s => (hD s).trans ?_⟩
  exact congrArg (Run.outcome · s) (eval_negatedFailure 6 (by decide))

end Witness

/-- A value that a type promises: one of a primitive type, or for `Boolean` an object that boxes a
boolean, or `null`. -/
def World.Admits (w : World ε ρ φ) (type : TypeDesc) (x : Value ρ φ) : Prop :=
  (∀ p, type.primitive? = some p → x.OfType p) ∧
    (type.isClass "java.lang.Boolean" = true → x = .null ∨
      ∃ r b, x = .object r ∧ w.boxed r = some (.boolean b))

/-- Two outcomes give the same boolean, boxed or not, or the same exception, and leave one state. -/
inductive World.Agree (w : World ε ρ φ) :
    Except ε (Value ρ φ) × σ → Except ε (Value ρ φ) × σ → Prop
  | given {x y b s} (hx : w.truth x = .ok b) (hy : w.truth y = .ok b) : Agree w (.ok x, s) (.ok y, s)
  | thrown {e s} : Agree w (.error e, s) (.error e, s)

omit [DecidableEq ρ] in
/-- A value that a boolean type promises is one or the other boolean, or `null`. -/
theorem World.Admits.truth {w : World ε ρ φ} {type : TypeDesc} {x : Value ρ φ}
    (h : w.Admits type x) (ht : type = .boolean ∨ type.isClass "java.lang.Boolean" = true) :
    x = .null ∨ ∃ b, w.truth x = .ok b := by
  rcases ht with rfl | ht
  · obtain ⟨b, rfl⟩ := Value.ofType_boolean (h.1 _ rfl)
    exact .inr ⟨b, w.truth_bool b⟩
  · rcases h.2 ht with rfl | ⟨r, b, rfl, hr⟩
    · exact .inl rfl
    · refine .inr ⟨b, ?_⟩
      simp only [World.truth, World.unboxed, hr, Option.elim_some]
      rfl

omit [DecidableEq ρ] in
/-- Negated twice, what a run gives is the same boolean again, unless it is `null`. -/
theorem World.negating_negating (w : World ε ρ φ) {m : Run σ ε (Value ρ φ)} {s : σ}
    (h : ∀ x s', m.outcome s = (.ok x, s') → x = .null ∨ ∃ b, w.truth x = .ok b) :
    w.Agree ((w.negating (w.negating m)).outcome s) (m.outcome s) ↔ (m.outcome s).1 ≠ .ok .null := by
  rcases m.outcome_cases s with ⟨x, s', hx⟩ | ⟨e, s', he⟩
  · have hneg : (w.negating m).outcome s = (w.negation x, s') := Run.outcome_bind_ok hx
    rcases h x s' hx with rfl | ⟨b, hb⟩
    · have hnull : (w.negating m).outcome s = (.error w.nullPointer, s') := hneg
      have hagain : (w.negating (w.negating m)).outcome s = (.error w.nullPointer, s') :=
        Run.outcome_bind_error hnull
      rw [hagain, hx]
      refine iff_of_false ?_ fun h => h rfl
      intro h
      cases h
    · have hbool : (w.negating m).outcome s = (.ok (.bool !b), s') := by
        rw [hneg, World.negation, hb]
        rfl
      have hagain : (w.negating (w.negating m)).outcome s = (.ok (.bool b), s') := by
        rw [← Bool.not_not b]
        exact Run.outcome_bind_ok hbool
      rw [hagain, hx]
      refine iff_of_true (.given (w.truth_bool b) hb) ?_
      rintro hnull
      cases hnull
      cases hb
  · have hneg : (w.negating m).outcome s = (.error e, s') := Run.outcome_bind_error he
    have hagain : (w.negating (w.negating m)).outcome s = (.error e, s') :=
      Run.outcome_bind_error hneg
    rw [hagain, he]
    exact iff_of_true .thrown fun h => by cases h

/-- A double negation gives way to its operand. Where the operand is of a boolean type, the two agree in
a state if and only if the operand is not `null` there: negating `null` is an exception. -/
theorem doubleNegation_agrees_iff {t : SyntaxTree} {n : NodeId} (ht : t.Linked) (hl : t.Laid)
    (hn : t.isAttached n = true) (x : Edit.Setting) (es : List Event)
    (hrev : ((doubleNegation.act n).runFrom x t es).tree.revision ≠ t.revision) :
    ∃ D, (∃ inner a, t.negatedOperand? n = some inner ∧ t.negatedOperand? inner = some a ∧
        (∀ s, (E.eval D).outcome s = (E.eval (t.doc a)).outcome s) ∧
        ∀ type, (View.mk t x.resolver x.rule x.pass).staticType? a = some type →
          type = .boolean ∨ type.isClass "java.lang.Boolean" = true →
          ∀ s, (∀ y s', (E.eval (t.doc a)).outcome s = (.ok y, s') → E.world.Admits type y) →
            (E.world.Agree ((E.eval (t.doc n)).outcome s) ((E.eval D).outcome s) ↔
              ((E.eval (t.doc a)).outcome s).1 ≠ .ok .null)) ∧
      t.Becomes n D ((doubleNegation.act n).runFrom x t es).tree := by
  refine Rule.becomes_of_puts hrev fun p hp => ?_
  obtain ⟨inner, a, hinner, ha, hputs⟩ :=
    doubleNegation_puts (v := ⟨t, x.resolver, x.rule, x.pass⟩) ht hl hn hp
  have hD := E.eval_placedAt t n (t.doc a)
  refine ⟨_, ⟨inner, a, hinner, ha, fun s => by rw [hD], ?_⟩, hputs⟩
  intro type _ hb s hs
  rw [hD, E.eval_negatedOperand ht hinner, E.eval_negatedOperand ht ha]
  exact E.world.negating_negating fun y s' hy => (hs y s' hy).truth hb

section Witness

open Interpreter

/-- `{ java.lang.Boolean x = null; boolean y = !(!x); }` -/
def negatedTwiceBoxed : Doc := .make .block .none []
  [plain (.localVar "x") [plain (.classType "java.lang.Boolean" false) [],
      plain (.literal .null "null") []],
    plain (.localVar "y") [plain (.primitiveType .boolean) [],
      plain (.unary .not) [plain .paren [plain (.unary .not) [plain (.nameExpr "x") []]]]]]

theorem negatedTwiceBoxed_agrees_iff : ∃ u D, (treeOf negatedTwiceBoxed).Becomes 7 D u ∧
    ((doubleNegation.act 7).runFrom ⟨.scope .empty, "DoubleNegation", 1⟩
      (treeOf negatedTwiceBoxed) []).tree = u ∧
    u.print = "\x7b\n    java.lang.Boolean x = null;\n    boolean y = x;\n\x7d" ∧
    ∀ s l, s.locals "x" = some l → world.Admits (.ofClass "java.lang.Boolean") l.value →
      (world.Agree ((eval ((treeOf negatedTwiceBoxed).doc 7)).outcome s) ((eval D).outcome s) ↔
        l.value ≠ .null) := by
  have hsound := treeOf_sound (d := negatedTwiceBoxed) rfl
  obtain ⟨D, ⟨inner, a, hinner, ha, -, hD⟩, hu⟩ := doubleNegation_agrees_iff execution.toEvaluator
    hsound.linked hsound.laid (n := 7) (by decide) ⟨.scope .empty, "DoubleNegation", 1⟩ [] (by decide)
  obtain rfl : 5 = inner := Option.some.inj hinner
  obtain rfl : 4 = a := Option.some.inj ha
  refine ⟨_, D, hu, rfl, by decide +kernel, fun s l hl hx => ?_⟩
  have hname : (eval ((treeOf negatedTwiceBoxed).doc 4)).outcome s = (.ok l.value, s) :=
    execution.eval_name (d := (treeOf negatedTwiceBoxed).doc 4) rfl hl
  have hiff := hD (.ofClass "java.lang.Boolean") rfl (.inr rfl) s fun y s' hy => by
    cases hname.symm.trans hy
    exact hx
  have hnull : ((eval ((treeOf negatedTwiceBoxed).doc 4)).outcome s).1 = .ok .null ↔
      l.value = .null := by
    simp [hname]
  exact hiff.trans (not_congr hnull)

/-- To negate `null` is an exception. Without the negations there is none. -/
theorem negatedTwiceBoxed_disagrees : ∃ u s, (treeOf negatedTwiceBoxed).Linked ∧
    (treeOf negatedTwiceBoxed).Laid ∧ (treeOf negatedTwiceBoxed).isAttached 7 = true ∧
    (View.mk (treeOf negatedTwiceBoxed) (.scope .empty) "DoubleNegation" 1).staticType? 4 =
      some (.ofClass "java.lang.Boolean") ∧
    ((doubleNegation.act 7).runFrom ⟨.scope .empty, "DoubleNegation", 1⟩
      (treeOf negatedTwiceBoxed) []).tree = u ∧
    (treeOf negatedTwiceBoxed).slot? 8 1 = some 7 ∧ u.slot? 8 1 = some 4 ∧
    (eval ((treeOf negatedTwiceBoxed).doc 7)).outcome s = (.error .nullPointer, s) ∧
    (eval (u.doc 4)).outcome s = (.ok .null, s) ∧
    ¬ world.Agree ((eval ((treeOf negatedTwiceBoxed).doc 7)).outcome s)
      ((eval (u.doc 4)).outcome s) := by
  have hsound := treeOf_sound (d := negatedTwiceBoxed) rfl
  let l : Local Object Approx := ⟨plain (.classType "java.lang.Boolean" false) [], .null⟩
  let s : Memory := ⟨fun y => if y = "x" then some l else none, ⟨fun _ => [], fun _ _ => none⟩⟩
  refine ⟨_, s, hsound.linked, hsound.laid, by decide, rfl, rfl, by decide, by decide, rfl, rfl, ?_⟩
  intro h
  cases h

end Witness

end TreeTidy.Meaning
