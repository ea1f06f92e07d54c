import TreeTidy.Print.Source
import TreeTidy.Proofs.Rules.Performed
import TreeTidy.Proofs.Rules.Shapes
import TreeTidy.Proofs.Tree.Built
import TreeTidy.Rules.Standard
/-!
Rules and what is known of types. Where more is known, a rule does what it does where less is known. One
rule is different: a local variable is dropped unless its type is known to be a primitive one that its
value does not have, so that knowing less lets the rule do more.
-/
namespace TreeTidy

/-- The second resolver gives every answer that the first one gives. -/
structure Resolver.Informs (r s : Resolver) : Prop where
  typeOf : ∀ t n ty, r.typeOf t n = .resolved ty → s.typeOf t n = .resolved ty
  visibleType : ∀ t n name c, r.visibleType t n name = .resolved c →
    s.visibleType t n name = .resolved c
  isSubtype : ∀ c ancestor b, r.isSubtype c ancestor = .resolved b →
    s.isSubtype c ancestor = .resolved b

/-- Stated types win with every scope resolver, and that a class is itself needs no table. -/
theorem Resolver.unresolved_informs_scope (classes : ClassTable) :
    Resolver.unresolved.Informs (.scope classes) where
  typeOf t n ty h := by
    have hty : (t.node n).ty = some ty := by
      cases hn : (t.node n).ty with
      | none => simp [unresolved, hn, Resolution.ofOption] at h
      | some ty' => simpa [unresolved, hn, Resolution.ofOption] using h
    simp only [scope, Infer.typeOf, Infer.typeWithin, Infer.kept, Infer.nodeType, hty]
    rfl
  visibleType _ _ _ _ h := nomatch h
  isSubtype c ancestor b h := by
    by_cases hc : c = ancestor
    · simpa [unresolved, scope, ClassTable.isSubtype, ClassTable.searchSupertype, hc] using h
    · simp [unresolved, ClassTable.isSubtype, ClassTable.searchSupertype, ClassTable.empty,
        ClassTable.get?, hc] at h

theorem Resolution.value?_eq_some {α : Type} {r : Resolution α} {a : α} :
    r.value? = some a ↔ r = .resolved a := by
  cases r <;> simp [value?]

theorem Resolution.isTrue_iff {r : Resolution Bool} : r.isTrue = true ↔ r = .resolved true := by
  rcases r with (_ | _) | _ | _ <;> simp [isTrue]

section Carries

variable {α β : Type} {x y : Option α} {f g : α → Option β}

/-- What the first gives, the second gives. -/
def Carries (x y : Option α) : Prop := ∀ a, x = some a → y = some a

namespace Carries

theorem refl (x : Option α) : Carries x x := fun _ h => h

theorem none (y : Option α) : Carries Option.none y := nofun

theorem bind (h : Carries x y) (hfg : ∀ a, Carries (f a) (g a)) : Carries (x >>= f) (y >>= g) := by
  intro b hb
  obtain ⟨a, ha, hb⟩ := Option.bind_eq_some_iff.mp hb
  exact Option.bind_eq_some_iff.mpr ⟨a, h a ha, hfg a b hb⟩

theorem bind_of (hfg : ∀ a, x = some a → Carries (f a) (g a)) : Carries (x >>= f) (x >>= g) := by
  intro b hb
  obtain ⟨a, ha, hb⟩ := Option.bind_eq_some_iff.mp hb
  exact Option.bind_eq_some_iff.mpr ⟨a, ha, hfg a ha b hb⟩

theorem bind_same (x : Option α) (hfg : ∀ a, Carries (f a) (g a)) : Carries (x >>= f) (x >>= g) :=
  bind (refl x) hfg

variable {p q : Prop} [Decidable p] [Decidable q]

theorem ifNot (h : q → p) (hxy : Carries x y) :
    Carries (if p then Option.none else x) (if q then Option.none else y) := by
  by_cases hp : p
  · rw [if_pos hp]
    exact none _
  · rw [if_neg hp, if_neg fun hq => hp (h hq)]
    exact hxy

theorem map {f : α → β} (h : Carries x y) : Carries (x.map f) (y.map f) := by
  intro b hb
  obtain ⟨a, ha, rfl⟩ := Option.map_eq_some_iff.mp hb
  exact Option.map_eq_some_iff.mpr ⟨a, h a ha, rfl⟩

theorem ifSo (h : p → q) (hxy : Carries x y) :
    Carries (if p then x else Option.none) (if q then y else Option.none) := by
  by_cases hp : p
  · rw [if_pos hp, if_pos (h hp)]
    exact hxy
  · rw [if_neg hp]
    exact none _

end Carries

end Carries

theorem eq_false_of_imp {a b : Bool} (h : a = true → b = true) (hb : b = false) : a = false := by
  cases a with
  | false => rfl
  | true => exact absurd (h rfl) (by simp [hb])

namespace View

/-- The same view with another resolver. -/
abbrev under (v : View) (res : Resolver) : View := { v with resolver := res }

variable {v : View} {res : Resolver} (h : v.resolver.Informs res) {n : NodeId} {name : String}
include h

theorem staticType?_carries (n : NodeId) : Carries (v.staticType? n) ((v.under res).staticType? n) :=
  fun _ hty => Resolution.value?_eq_some.mpr
    (h.typeOf _ _ _ (Resolution.value?_eq_some.mp hty))

theorem primitive?_carries (n : NodeId) : Carries (v.primitive? n) ((v.under res).primitive? n) :=
  .bind (staticType?_carries h n) fun _ => .refl _

omit h in
theorem primitive?_eq_some {p : Primitive} :
    v.primitive? n = some p ↔ v.typeOf n = .resolved (.primitive p) := by
  rw [primitive?, staticType?]
  cases v.typeOf n with
  | resolved ty => cases ty <;> simp [Resolution.value?, TypeDesc.primitive?]
  | _ => simp [Resolution.value?]

theorem isString_under (hs : v.isString n = true) : (v.under res).isString n = true := by
  rw [isString, Option.any_eq_true] at hs ⊢
  obtain ⟨ty, hty, hs⟩ := hs
  exact ⟨ty, staticType?_carries h n ty hty, hs⟩

theorem inherits_under {ancestor : String} (hi : v.inherits n ancestor = true) :
    (v.under res).inherits n ancestor = true := by
  rw [inherits, Resolution.isTrue_iff, isSubtypeAt, Resolver.isSubtypeAt] at hi ⊢
  cases hr : v.resolver.typeOf v.tree n with
  | resolved ty =>
    rw [h.typeOf _ _ _ hr]
    rw [hr] at hi
    simp only [Resolution.bind] at hi ⊢
    cases hc : ty.className? with
    | some c =>
      rw [hc] at hi
      exact h.isSubtype c ancestor true hi
    | none =>
      rw [hc] at hi
      cases hi
  | _ =>
    rw [hr] at hi
    cases hi

theorem classNamed?_carries (n : NodeId) (name : String) :
    Carries (v.classNamed? n name) ((v.under res).classNamed? n name) := by
  rw [classNamed?, classNamed?]
  split
  · exact .refl _
  · exact fun c hc => Resolution.value?_eq_some.mpr
      (h.visibleType _ _ _ _ (Resolution.value?_eq_some.mp hc))

theorem wrappedBy?_carries (n : NodeId) (name : String) :
    Carries (v.wrappedBy? n name) ((v.under res).wrappedBy? n name) :=
  .bind (classNamed?_carries h n name) fun _ => .refl _

theorem namesClass_under {qualified : String} (hc : v.namesClass n name qualified = true) :
    (v.under res).namesClass n name qualified = true := by
  rw [namesClass, beq_iff_eq] at hc ⊢
  exact classNamed?_carries h n name _ hc

end View

namespace Rules

open SyntaxTree Draft

variable {v : View} {res : Resolver} (h : v.resolver.Informs res) (n : NodeId)
include h

theorem booleanLiteralComparison_carries :
    Carries (booleanLiteralComparison.planAt v n) (booleanLiteralComparison.planAt (v.under res) n) := by
  rw [booleanLiteralComparison.planAt, booleanLiteralComparison.planAt]
  dsimp only [View.under]
  cases v.tree.kind n with
  | binary op =>
    dsimp only
    split
    · exact .refl _
    refine .bind_same _ fun a => .bind_same _ fun b => .bind_same _ fun x => ?_
    exact .ifNot (fun hne heq => hne (View.primitive?_carries h _ _ heq)) (.refl _)
  | _ => exact .refl _

theorem literalsFirstInComparisons_carries :
    Carries (literalsFirstInComparisons.planAt v n) (literalsFirstInComparisons.planAt (v.under res) n) := by
  refine .bind_same _ fun c => .bind_same _ fun receiver => .bind_same _ fun arg => ?_
  refine .ifNot ?_ (.refl _)
  simp only [Bool.or_eq_true, Bool.not_eq_true']
  exact Or.imp_right (eq_false_of_imp (View.isString_under h))

theorem areComparable_under {a b : NodeId} (hc : areComparable v a b = true) :
    areComparable (v.under res) a b = true := by
  rw [areComparable] at hc ⊢
  cases hp : v.primitive? a with
  | none =>
    rw [hp] at hc
    cases hc
  | some p =>
    rw [hp] at hc
    rw [View.primitive?_carries h a p hp]
    simp only [Bool.and_eq_true, beq_iff_eq] at hc ⊢
    exact hc.imp_right (View.primitive?_carries h b p)

theorem primitiveObjectsEquals_carries :
    Carries (primitiveObjectsEquals.planAt v n) (primitiveObjectsEquals.planAt (v.under res) n) := by
  refine .bind_same _ fun x => ?_
  dsimp only [View.under]
  cases v.tree.kind x.1 with
  | typeName name =>
    refine .ifNot ?_ (.refl _)
    simp only [Bool.or_eq_true, Bool.not_eq_true']
    exact Or.imp (eq_false_of_imp (View.namesClass_under h)) (eq_false_of_imp (areComparable_under h))
  | _ => exact .refl _

theorem stringIsEmpty_carries :
    Carries (stringIsEmpty.planAt v n) (stringIsEmpty.planAt (v.under res) n) :=
  .bind_same _ fun _ => .ifSo (View.isString_under h) (.refl _)

theorem isSized_under (hs : isSized v n = true) : isSized (v.under res) n = true := by
  simp only [isSized, Bool.or_eq_true] at hs ⊢
  exact hs.imp (View.inherits_under h) (View.inherits_under h)

theorem collectionIsEmpty_carries :
    Carries (collectionIsEmpty.planAt v n) (collectionIsEmpty.planAt (v.under res) n) :=
  .bind_same _ fun _ => .ifSo (isSized_under h _) (.refl _)

theorem lambdaIsMethodReference_carries :
    Carries (lambdaIsMethodReference.planAt v n) (lambdaIsMethodReference.planAt (v.under res) n) := by
  refine .bind_same _ fun x => .ifNot ?_ (.refl _)
  have hcls : Carries ((v.staticType? x.1).bind TypeDesc.className?)
      (((v.under res).staticType? x.1).bind TypeDesc.className?) :=
    .bind (View.staticType?_carries h x.1) fun _ => .refl _
  simp only [Option.isNone_iff_eq_none]
  intro hnone
  rw [Option.eq_none_iff_forall_ne_some] at hnone ⊢
  exact fun c hc => hnone c (hcls c hc)

theorem streamForEach_carries :
    Carries (streamForEach.planAt v n) (streamForEach.planAt (v.under res) n) := by
  refine .bind_same _ fun c => .bind_same _ fun stream => ?_
  split
  · refine .bind_same _ fun source => .ifNot ?_ (.refl _)
    simp only [Bool.not_eq_true']
    exact eq_false_of_imp (View.inherits_under h)
  · exact .refl _

theorem stringIndexOfChar_carries :
    Carries (stringIndexOfChar.planAt v n) (stringIndexOfChar.planAt (v.under res) n) := by
  refine .bind_same _ fun c => .bind_same _ fun needle => .bind_same _ fun receiver => ?_
  refine .bind_same _ fun text => .ifNot ?_ (.refl _)
  simp only [Bool.or_eq_true, Bool.not_eq_true']
  exact Or.imp_right (eq_false_of_imp (View.isString_under h))

theorem areIntegral_under {a b : NodeId} (hi : areIntegral v a b = true) :
    areIntegral (v.under res) a b = true := by
  simp only [areIntegral, Bool.and_eq_true, Option.any_eq_true] at hi ⊢
  obtain ⟨⟨p, hp, hpi⟩, q, hq, hqi⟩ := hi
  exact ⟨⟨p, View.primitive?_carries h a p hp, hpi⟩, q, View.primitive?_carries h b q hq, hqi⟩

theorem negatedComparison_carries :
    Carries (negatedComparison.planAt v n) (negatedComparison.planAt (v.under res) n) := by
  refine .bind_same _ fun comparison => ?_
  dsimp only [View.under]
  cases v.tree.kind comparison with
  | binary op =>
    refine .bind_same _ fun negated => .bind_same _ fun a => .bind_same _ fun b => .ifNot ?_ (.refl _)
    simp only [Bool.and_eq_true, Bool.not_eq_true']
    exact And.imp_right (eq_false_of_imp (areIntegral_under h))
  | _ => exact .refl _

theorem optionalNotEmpty_carries :
    Carries (optionalNotEmpty.planAt v n) (optionalNotEmpty.planAt (v.under res) n) := by
  refine .bind_same _ fun operand => .bind_same _ fun x => .ifNot ?_ (.refl _)
  simp only [Bool.not_eq_true']
  exact eq_false_of_imp (View.inherits_under h)

theorem stringToString_carries :
    Carries (stringToString.planAt v n) (stringToString.planAt (v.under res) n) :=
  .bind_same _ fun _ => .ifSo (View.isString_under h) (.refl _)

theorem stringReplaceAllLiteral_carries :
    Carries (stringReplaceAllLiteral.planAt v n) (stringReplaceAllLiteral.planAt (v.under res) n) := by
  refine .bind_same _ fun c => .bind_same _ fun receiver => ?_
  split
  · refine .bind_same _ fun pattern => .bind_same _ fun replacement => .ifNot ?_ (.refl _)
    simp only [Bool.or_eq_true, Bool.not_eq_true']
    exact Or.imp_right (eq_false_of_imp (View.isString_under h))
  · exact .refl _

theorem stringFromString_carries :
    Carries (stringFromString.planAt v n) (stringFromString.planAt (v.under res) n) := by
  rw [stringFromString.planAt, stringFromString.planAt]
  dsimp only [View.under]
  split
  · refine .ifSo ?_ (.refl _)
    simp only [Bool.and_eq_true]
    exact And.imp_right (View.isString_under h)
  · exact .refl _

theorem isVisibleAs_under {name : String} (hv : isVisibleAs v n name = true) :
    isVisibleAs (v.under res) n name = true := by
  simp only [isVisibleAs, Bool.and_eq_true, beq_iff_eq] at hv ⊢
  exact hv.imp_right fun hc => Resolution.value?_eq_some.mpr
    (h.visibleType _ _ _ _ (Resolution.value?_eq_some.mp hc))

theorem unnecessaryFullyQualifiedName_carries :
    Carries (unnecessaryFullyQualifiedName.planAt v n)
      (unnecessaryFullyQualifiedName.planAt (v.under res) n) := by
  rw [unnecessaryFullyQualifiedName.planAt, unnecessaryFullyQualifiedName.planAt]
  dsimp only [View.under]
  cases v.tree.kind n with
  | classType name diamond =>
    refine .ifNot ?_ (.refl _)
    simp only [Bool.not_eq_true']
    exact eq_false_of_imp (isVisibleAs_under h n)
  | typeName name =>
    refine .ifNot ?_ (.refl _)
    simp only [Bool.not_eq_true']
    exact eq_false_of_imp (isVisibleAs_under h n)
  | _ => exact .refl _

theorem haveSameType_under {a b : NodeId} (hs : haveSameType v a b = true) :
    haveSameType (v.under res) a b = true := by
  simp only [haveSameType, Bool.and_eq_true, Option.isSome_iff_exists, beq_iff_eq] at hs ⊢
  obtain ⟨⟨ty, hty⟩, heq⟩ := hs
  have ha := View.staticType?_carries h a ty hty
  exact ⟨⟨ty, ha⟩, ha.trans (View.staticType?_carries h b ty (heq ▸ hty)).symm⟩

theorem conditionalAssignmentToTernary_carries :
    Carries (conditionalAssignmentToTernary.planAt v n)
      (conditionalAssignmentToTernary.planAt (v.under res) n) := by
  rw [conditionalAssignmentToTernary.planAt, conditionalAssignmentToTernary.planAt]
  dsimp only [View.under]
  cases v.tree.kind n with
  | localVar name =>
    refine .bind_same _ fun ty => .bind_same _ fun start => .bind_same _ fun branch => ?_
    refine .bind_same _ fun g => .ifNot ?_ (.refl _)
    simp only [Bool.or_eq_true, Bool.not_eq_true']
    exact Or.imp_right (eq_false_of_imp (haveSameType_under h))
  | _ => exact .refl _

theorem boxingByNew?_carries : Carries (boxingByNew? v n) (boxingByNew? (v.under res) n) := by
  rw [boxingByNew?, boxingByNew?]
  dsimp only [View.under]
  split
  · refine .bind_same _ fun ty => ?_
    split
    · exact .bind (View.wrappedBy?_carries h _ _) fun _ => .refl _
    · exact .refl _
  · exact .refl _

theorem boxingByCall?_carries : Carries (boxingByCall? v n) (boxingByCall? (v.under res) n) := by
  refine .bind_same _ fun c => .bind_same _ fun receiver => ?_
  dsimp only [View.under]
  split
  · exact .bind (View.wrappedBy?_carries h _ _) fun _ => .refl _
  · exact .refl _

theorem primitiveWrapperInstantiation_carries :
    Carries (primitiveWrapperInstantiation.planAt v n)
      (primitiveWrapperInstantiation.planAt (v.under res) n) :=
  (boxingByNew?_carries h n).map

theorem boxing?_carries : Carries (boxing? v n) (boxing? (v.under res) n) := by
  intro b hb
  rw [boxing?, Option.or_eq_some_iff] at hb ⊢
  rcases hb with hb | ⟨-, hb⟩
  · exact .inl (boxingByNew?_carries h n b hb)
  · refine .inr ⟨?_, boxingByCall?_carries h n b hb⟩
    obtain ⟨c, hc, -⟩ := Option.bind_eq_some_iff.mp hb
    -- a call is no making of an object
    have hk := (call?_eq_some.mp hc).1
    simp [boxingByNew?, hk]

theorem boxedPrimitiveToString_carries :
    Carries (boxedPrimitiveToString.planAt v n) (boxedPrimitiveToString.planAt (v.under res) n) := by
  refine .bind_same _ fun receiver => .bind (boxing?_carries h _) fun b => ?_
  exact .ifSo (View.primitive?_carries h _ _) (.refl _)

/-- The local variable has a type that is not known to the view but known to the resolver: a primitive
one that its value is not known to have. -/
def Overlooks (v : View) (res : Resolver) (n : NodeId) : Prop :=
  ∃ declared value p, v.tree.slot? n 0 = some declared ∧ v.tree.slot? n 1 = some value ∧
    (v.typeOf declared).isResolved = false ∧
    res.typeOf v.tree declared = .resolved (.primitive p) ∧
    res.typeOf v.tree value ≠ .resolved (.primitive p)

theorem keepsValue_under {ty value : NodeId} (hty : v.tree.slot? n 0 = some ty)
    (hvalue : v.tree.slot? n 1 = some value) (hn : ¬Overlooks v res n)
    (hk : keepsValue v ty value = true) : keepsValue (v.under res) ty value = true := by
  rw [keepsValue] at hk ⊢
  cases hp : (v.under res).primitive? ty with
  | none => rfl
  | some p =>
    refine beq_iff_eq.mpr (by_contra fun hne => hn ?_)
    refine ⟨ty, value, p, hty, hvalue, ?_, View.primitive?_eq_some.mp hp,
      fun hr => hne (View.primitive?_eq_some.mpr hr)⟩
    cases hr : v.typeOf ty with
    | resolved ty' =>
      -- what the view knows of the declared type is what the resolver knows
      have hsame := (h.typeOf _ _ _ hr).symm.trans (View.primitive?_eq_some.mp hp)
      cases hsame
      rw [View.primitive?_eq_some.mpr hr] at hk
      exact absurd (View.primitive?_carries h value p (beq_iff_eq.mp hk)) hne
    | _ => rfl

theorem unnecessaryLocalBeforeReturn_carries (hn : ¬Overlooks v res n) :
    Carries (unnecessaryLocalBeforeReturn.planAt v n)
      (unnecessaryLocalBeforeReturn.planAt (v.under res) n) := by
  rw [unnecessaryLocalBeforeReturn.planAt, unnecessaryLocalBeforeReturn.planAt]
  dsimp only [View.under]
  cases v.tree.kind n with
  | localVar name =>
    refine .bind_of fun ty hty => .bind_of fun value hvalue => .bind_same _ fun ret => ?_
    refine .ifNot (fun hk => hk) (.bind_same _ fun returned => .ifNot ?_ (.refl _))
    simp only [Bool.or_eq_true, Bool.not_eq_true']
    exact Or.imp_right (eq_false_of_imp (keepsValue_under h n hty hvalue hn))
  | _ => exact .refl _

omit h in
/-- Where the type of the variable is known, the variable stays. -/
theorem unnecessaryLocalBeforeReturn_of_overlooks (ho : Overlooks v res n) :
    unnecessaryLocalBeforeReturn.planAt (v.under res) n = none := by
  obtain ⟨declared, value, p, hd, hv, -, hp, hne⟩ := ho
  have hk : keepsValue (v.under res) declared value = false := by
    have hp' : (v.under res).primitive? declared = some p := View.primitive?_eq_some.mpr hp
    rw [keepsValue, hp']
    exact beq_eq_false_iff_ne.mpr fun he => hne (View.primitive?_eq_some.mp he)
  rw [unnecessaryLocalBeforeReturn.planAt]
  dsimp only [View.under] at hk ⊢
  cases v.tree.kind n with
  | localVar name =>
    simp only [hd, hv, Option.bind_eq_bind, Option.bind_some, hk]
    cases following? v.tree n with
    | none => rfl
    | some ret => simp
  | _ => rfl

end Rules

section Steady

variable {res res' : Resolver} {rule : String} {pass : Nat} {t : SyntaxTree} {n : NodeId} {es : List Event}

/-- Nodes are made without a look at what is known, and no event comes of it. -/
theorem Step.runFrom_performAll (x y : Edit.Setting) (steps : List Step) (made : List NodeId) :
    (performAll made steps).runFrom x t es = (performAll made steps).runFrom y t es := by
  induction steps generalizing made t es with
  | nil => rfl
  | cons s steps ih =>
    have hs : (s.perform made).runFrom x t es = (s.perform made).runFrom y t es := by
      cases s with
      | copy n => rfl
      | make kind span slots list =>
        rw [perform, Edit.make, Edit.runFrom, Edit.runFrom]
        split <;> rfl
    rw [performAll, Edit.runFrom_andThen, Edit.runFrom_andThen, hs]
    split
    · exact ih _
    · rfl

/-- Once a plan is made, resolvers make no difference. -/
theorem Plan.runFrom_under (p : Plan) (res res' : Resolver) :
    p.perform.runFrom ⟨res, rule, pass⟩ t es = p.perform.runFrom ⟨res', rule, pass⟩ t es := by
  rw [perform, Edit.runFrom_andThen, Edit.runFrom_andThen,
    Step.runFrom_performAll ⟨res, rule, pass⟩ ⟨res', rule, pass⟩]
  split <;> rfl

/-- With more known, the rule does to a node what it does with less, unless that is nothing. -/
def Rule.Steady (r : Rule) : Prop :=
  ∀ {res res' : Resolver}, res.Informs res' → ∀ t n rule pass es,
    ((r.act n).runFrom ⟨res, rule, pass⟩ t es).tree ≠ t →
      (r.act n).runFrom ⟨res', rule, pass⟩ t es = (r.act n).runFrom ⟨res, rule, pass⟩ t es

variable {info : RuleInfo} {g : Granularity} {planAt : View → NodeId → Option Plan}

theorem Rule.runFrom_ofPlan (h : Carries (planAt ⟨t, res, rule, pass⟩ n) (planAt ⟨t, res', rule, pass⟩ n))
    (hw : (((ofPlan info g planAt).act n).runFrom ⟨res, rule, pass⟩ t es).tree ≠ t) :
    ((ofPlan info g planAt).act n).runFrom ⟨res', rule, pass⟩ t es =
      ((ofPlan info g planAt).act n).runFrom ⟨res, rule, pass⟩ t es := by
  simp only [ofPlan, Edit.runFrom] at hw ⊢
  cases hp : planAt ⟨t, res, rule, pass⟩ n with
  | none =>
    rw [hp] at hw
    exact absurd rfl hw
  | some p =>
    rw [h p hp]
    exact p.runFrom_under res' res

theorem steady_ofPlan (h : ∀ {v : View} {res : Resolver}, v.resolver.Informs res → ∀ n,
    Carries (planAt v n) (planAt (v.under res) n)) : (Rule.ofPlan info g planAt).Steady :=
  fun hi _ n _ _ _ hw => Rule.runFrom_ofPlan (h hi n) hw

end Steady

namespace Rules

theorem steady_all : ∀ r ∈ all, r = unnecessaryLocalBeforeReturn ∨ r.Steady := by
  simp only [all, List.forall_mem_cons]
  exact ⟨.inr (steady_ofPlan fun _ _ => .refl _),
    .inr (steady_ofPlan booleanLiteralComparison_carries),
    .inr (steady_ofPlan negatedComparison_carries),
    .inr (steady_ofPlan fun _ _ => .refl _),
    .inr (steady_ofPlan fun _ _ => .refl _),
    .inr (steady_ofPlan literalsFirstInComparisons_carries),
    .inr (steady_ofPlan stringIsEmpty_carries),
    .inr (steady_ofPlan stringToString_carries),
    .inr (steady_ofPlan stringIndexOfChar_carries),
    .inr (steady_ofPlan stringReplaceAllLiteral_carries),
    .inr (steady_ofPlan stringFromString_carries),
    .inr (steady_ofPlan primitiveWrapperInstantiation_carries),
    .inr (steady_ofPlan boxedPrimitiveToString_carries),
    .inr (steady_ofPlan primitiveObjectsEquals_carries),
    .inr (steady_ofPlan collectionIsEmpty_carries),
    .inr (steady_ofPlan optionalNotEmpty_carries),
    .inr (steady_ofPlan streamForEach_carries),
    .inr (steady_ofPlan fun _ _ => .refl _),
    .inr (steady_ofPlan fun _ _ => .refl _),
    .inr (steady_ofPlan fun _ _ => .refl _),
    .inr (steady_ofPlan fun _ _ => .refl _),
    .inr (steady_ofPlan lambdaIsMethodReference_carries),
    .inr (steady_ofPlan conditionalAssignmentToTernary_carries),
    .inl trivial,
    .inr (steady_ofPlan fun _ _ => .refl _),
    .inr (steady_ofPlan fun _ _ => .refl _),
    .inr (steady_ofPlan fun _ _ => .refl _),
    .inr (steady_ofPlan fun _ _ => .refl _),
    .inr (steady_ofPlan fun _ _ => .refl _),
    .inr (steady_ofPlan fun _ _ => .refl _),
    .inr (steady_ofPlan fun _ _ => .refl _),
    .inr (steady_ofPlan unnecessaryFullyQualifiedName_carries), nofun⟩

variable {r : Rule} {res res' : Resolver} {rule : String} {pass : Nat} {t : SyntaxTree} {n : NodeId}
  {es : List Event}

/-- What a rule does to a node with less known of types it does with more known, down to the last node made,
but for a variable that is dropped before a `return`: where its type is only now known to be a primitive one
that its value does not have, it stays. -/
theorem rewrites_informed (hi : res.Informs res') (hr : r ∈ all)
    (hw : ((r.act n).runFrom ⟨res, rule, pass⟩ t es).tree ≠ t) :
    (r.act n).runFrom ⟨res', rule, pass⟩ t es = (r.act n).runFrom ⟨res, rule, pass⟩ t es ∨
      r = unnecessaryLocalBeforeReturn ∧ Overlooks ⟨t, res, rule, pass⟩ res' n ∧
        (r.act n).runFrom ⟨res', rule, pass⟩ t es = ⟨.ok false, t, es⟩ := by
  rcases steady_all r hr with rfl | hs
  · by_cases ho : Overlooks ⟨t, res, rule, pass⟩ res' n
    · refine .inr ⟨rfl, ho, ?_⟩
      have hnone := unnecessaryLocalBeforeReturn_of_overlooks n ho
      simp only [unnecessaryLocalBeforeReturn, Rule.ofPlan, Edit.runFrom]
      rw [hnone]
      rfl
    · exact .inl (Rule.runFrom_ofPlan (unnecessaryLocalBeforeReturn_carries hi n ho) hw)
  · exact .inl (hs hi t n rule pass es hw)

/-- `s.toString()`, with the type of `s` stated. -/
def textOfText : Doc := .plain (.methodCall "toString")
  [some (.node (.nameExpr "s") Span.none (some .string) [] [])] []

/-- `{ long x = 1; return x; }` -/
def returnedLong : Doc := .plain .block []
  [.plain (.localVar "x") [some (.plain (.primitiveType .long) [] []),
      some (.plain (.literal .int "1") [] [])] [],
    .plain .returnStmt [some (.plain (.nameExpr "x") [] [])] []]

/-- The tree of a unit that consists of the document. -/
def treeOf (d : Doc) : SyntaxTree :=
  match SourceUnit.ofDoc 1 ⟨"T.java", .standard, [], d⟩ with
  | .ok u => u.tree
  | .error _ => .empty 1

theorem textOfText_informed : Resolver.unresolved.Informs (.ofClasses []) ∧ stringToString ∈ all ∧
    ((stringToString.act 1).runFrom ⟨.unresolved, "StringToString", 1⟩ (treeOf textOfText) []).tree ≠
      treeOf textOfText ∧
    ((stringToString.act 1).runFrom ⟨.ofClasses [], "StringToString", 1⟩ (treeOf textOfText) []).tree.print =
      "s" := by
  have hi : Resolver.unresolved.Informs (.ofClasses []) := Resolver.unresolved_informs_scope _
  have hr : stringToString ∈ all := by simp [all]
  have hw : ((stringToString.act 1).runFrom ⟨.unresolved, "StringToString", 1⟩ (treeOf textOfText)
      []).tree ≠ treeOf textOfText := fun h => absurd (congrArg SyntaxTree.revision h) (by decide)
  refine ⟨hi, hr, hw, ?_⟩
  rcases rewrites_informed hi hr hw with h | ⟨h, -⟩
  · rw [h]
    rfl
  · exact absurd (congrArg Rule.id h) (by decide)

/-- The variable is dropped if nothing is known of it, and stays where its type and that of its value are
known. -/
theorem returnedLong_uninformed : (treeOf returnedLong).Sound ∧ (treeOf returnedLong).isAttached 2 = true ∧
    Resolver.unresolved.Informs (.ofClasses []) ∧ unnecessaryLocalBeforeReturn ∈ all ∧
    ((unnecessaryLocalBeforeReturn.act 2).runFrom ⟨.unresolved, "UnnecessaryLocalBeforeReturn", 1⟩
      (treeOf returnedLong) []).tree.revision ≠ (treeOf returnedLong).revision ∧
    (unnecessaryLocalBeforeReturn.act 2).runFrom ⟨.ofClasses [], "UnnecessaryLocalBeforeReturn", 1⟩
      (treeOf returnedLong) [] = ⟨.ok false, treeOf returnedLong, []⟩ := by
  obtain ⟨u, hu, he⟩ : ∃ u, SourceUnit.ofDoc 1 ⟨"T.java", .standard, [], returnedLong⟩ = .ok u ∧
      u.tree = treeOf returnedLong := ⟨_, rfl, rfl⟩
  exact ⟨he ▸ (SourceUnit.ofDoc_sound hu).1, by decide, Resolver.unresolved_informs_scope _, by simp [all],
    by decide, rfl⟩

end Rules

end TreeTidy
