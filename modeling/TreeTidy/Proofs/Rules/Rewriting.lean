import Mathlib.Order.WellFounded
import TreeTidy.Proofs.Engine.Provenance
import TreeTidy.Proofs.Engine.Visits
import TreeTidy.Proofs.Rules.Comparison
import TreeTidy.Proofs.Rules.Lambda
import TreeTidy.Proofs.Rules.Leftover
import TreeTidy.Proofs.Rules.Literal
import TreeTidy.Proofs.Rules.Negation
import TreeTidy.Proofs.Rules.Text
import TreeTidy.Proofs.Rules.TypeWord
import TreeTidy.Proofs.Rules.Window
import TreeTidy.Proofs.Rules.Wrapper
import TreeTidy.Rules.Standard
/-!
Rewriting by the rules of the library, all of them: what can come of having one try a node, and that
nothing but the tree and the resolver decides it.
-/
namespace TreeTidy.Rules

open SyntaxTree

/-- What can come of having a rule try a node: nothing, a better tree, or the refusal to take the
root away, which is an import then. -/
inductive Tried (r : Rule) (x : Edit.Setting) (t : SyntaxTree) (n : NodeId) (es : List Event) :
    Edit.Outcome Bool → Prop
  | idle : Tried r x t n es ⟨.ok false, t, es⟩
  | rewritten {u : SyntaxTree} (h : t.Rewritten u) : Tried r x t n es ⟨.ok true, u, es⟩
  | refused (hr : r.id = "UnnecessaryImport") (hn : t.root = some n)
      (hk : isLanguageImport (t.kind n) = true) : Tried r x t n es
        ⟨.ok false, t, es ++ [⟨x.pass, some x.rule, some n, t.span n, .rejected "remove"⟩]⟩

/-- A rule whose tries on attached nodes of sound trees come out well, and depend on nothing but the
tree, the resolver and the node. -/
structure Reliable (r : Rule) : Prop where
  tried : ∀ {t n}, t.Linked → t.Laid → t.isAttached n = true → ∀ x es,
    Tried r x t n es ((r.act n).runFrom x t es)
  alike : ∀ {t n}, t.Linked → t.Laid → t.isAttached n = true → ∀ {x y : Edit.Setting},
    x.resolver = y.resolver → ∀ es fs,
      ((r.act n).runFrom x t es).tree = ((r.act n).runFrom y t fs).tree

/-- Neither the name of the rule nor the pass makes a difference for the plan. -/
def Unconcerned (planAt : View → NodeId → Option Plan) : Prop :=
  ∀ t res rule rule' pass pass' n, planAt ⟨t, res, rule, pass⟩ n = planAt ⟨t, res, rule', pass'⟩ n

theorem reliable_ofPlan {info : RuleInfo} {g : Granularity} {planAt : View → NodeId → Option Plan}
    (hd : Descends planAt) (hu : Unconcerned planAt) : Reliable (.ofPlan info g planAt) where
  tried {t n} ht hl hn x es := by
    simp only [Rule.ofPlan, Edit.runFrom]
    split
    next p hp =>
      obtain ⟨u, hu, hrun⟩ := hd (v := ⟨t, x.resolver, x.rule, x.pass⟩) ht hl hn hp
      rw [hrun]
      exact .rewritten hu
    · exact .idle
  alike {t n} ht hl hn {x y} hxy es fs := by
    simp only [Rule.ofPlan, Edit.runFrom]
    rw [hxy, hu t y.resolver x.rule y.rule x.pass y.pass n]
    split
    next p hp =>
      obtain ⟨u, -, hrun⟩ := hd (v := ⟨t, y.resolver, y.rule, y.pass⟩) ht hl hn hp
      rw [hrun, hrun]
    · rfl

theorem reliable_unnecessaryImport : Reliable unnecessaryImport where
  tried {t n} ht hl hn x es := by
    simp only [unnecessaryImport, Rule.ofPlan, Edit.runFrom]
    split
    next p hp =>
      cases hpar : t.parent? n with
      | some q =>
        obtain ⟨u, hu, hrun⟩ := unnecessaryImport_rewrites ht hl hn hpar hp
        rw [hrun]
        exact .rewritten hu
      | none =>
        have hroot : t.root = some n := by
          rcases ht.attached_cases hn with ⟨h, -⟩ | ⟨q, hq, -⟩
          · exact h
          · rw [hpar] at hq
            cases hq
        have hk := unnecessaryImport_isSome_of_root (v := ⟨t, x.resolver, x.rule, x.pass⟩) hpar
        rw [hp] at hk
        rw [(unnecessaryImport_plan hp).1, runFrom_takeAway_of_root hpar]
        exact .refused rfl hroot hk.symm
    · exact .idle
  alike {t n} ht hl hn {x y} hxy es fs := by
    have hsame : unnecessaryImport.planAt ⟨t, x.resolver, x.rule, x.pass⟩ n =
        unnecessaryImport.planAt ⟨t, y.resolver, y.rule, y.pass⟩ n := rfl
    simp only [unnecessaryImport, Rule.ofPlan, Edit.runFrom]
    rw [hsame]
    split
    next p hp =>
      cases hpar : t.parent? n with
      | some q =>
        obtain ⟨u, -, hrun⟩ := unnecessaryImport_rewrites ht hl hn hpar hp
        rw [hrun, hrun]
      | none =>
        rw [(unnecessaryImport_plan hp).1, runFrom_takeAway_of_root hpar, runFrom_takeAway_of_root hpar]
    · rfl

theorem reliable_all : ∀ r ∈ all, Reliable r := by
  simp only [all, List.forall_mem_cons]
  exact ⟨reliable_ofPlan doubleNegation_descends fun _ _ _ _ _ _ _ => rfl,
    reliable_ofPlan booleanLiteralComparison_descends fun _ _ _ _ _ _ _ => rfl,
    reliable_ofPlan negatedComparison_descends fun _ _ _ _ _ _ _ => rfl,
    reliable_ofPlan redundantParentheses_descends fun _ _ _ _ _ _ _ => rfl,
    reliable_ofPlan nullLiteralOnRight_descends fun _ _ _ _ _ _ _ => rfl,
    reliable_ofPlan literalsFirstInComparisons_descends fun _ _ _ _ _ _ _ => rfl,
    reliable_ofPlan stringIsEmpty_descends fun _ _ _ _ _ _ _ => rfl,
    reliable_ofPlan stringToString_descends fun _ _ _ _ _ _ _ => rfl,
    reliable_ofPlan stringIndexOfChar_descends fun _ _ _ _ _ _ _ => rfl,
    reliable_ofPlan stringReplaceAllLiteral_descends fun _ _ _ _ _ _ _ => rfl,
    reliable_ofPlan stringFromString_descends fun _ _ _ _ _ _ _ => rfl,
    reliable_ofPlan primitiveWrapperInstantiation_descends fun _ _ _ _ _ _ _ => rfl,
    reliable_ofPlan boxedPrimitiveToString_descends fun _ _ _ _ _ _ _ => rfl,
    reliable_ofPlan primitiveObjectsEquals_descends fun _ _ _ _ _ _ _ => rfl,
    reliable_ofPlan collectionIsEmpty_descends fun _ _ _ _ _ _ _ => rfl,
    reliable_ofPlan optionalNotEmpty_descends fun _ _ _ _ _ _ _ => rfl,
    reliable_ofPlan streamForEach_descends fun _ _ _ _ _ _ _ => rfl,
    reliable_ofPlan longLiteralSuffix_descends fun _ _ _ _ _ _ _ => rfl,
    reliable_ofPlan numericLiteralUnderscores_descends fun _ _ _ _ _ _ _ => rfl,
    reliable_ofPlan lambdaParenthesesRemoval_descends fun _ _ _ _ _ _ _ => rfl,
    reliable_ofPlan lambdaReturnsSingleStatement_descends fun _ _ _ _ _ _ _ => rfl,
    reliable_ofPlan lambdaIsMethodReference_descends fun _ _ _ _ _ _ _ => rfl,
    reliable_ofPlan conditionalAssignmentToTernary_descends fun _ _ _ _ _ _ _ => rfl,
    reliable_ofPlan unnecessaryLocalBeforeReturn_descends fun _ _ _ _ _ _ _ => rfl,
    reliable_ofPlan simplifyBooleanReturn_descends fun _ _ _ _ _ _ _ => rfl,
    reliable_ofPlan emptyStatement_descends fun _ _ _ _ _ _ _ => rfl,
    reliable_ofPlan localVariableTypeInference_descends fun _ _ _ _ _ _ _ => rfl,
    reliable_ofPlan useDiamondOperator_descends fun _ _ _ _ _ _ _ => rfl,
    reliable_ofPlan unnecessaryModifier_descends fun _ _ _ _ _ _ _ => rfl,
    reliable_ofPlan removeExplicitSuperCall_descends fun _ _ _ _ _ _ _ => rfl,
    reliable_unnecessaryImport,
    reliable_ofPlan unnecessaryFullyQualifiedName_descends fun _ _ _ _ _ _ _ => rfl, nofun⟩

end TreeTidy.Rules

/-! Every chain of rewritings ends, whatever rules are used where; and since a tree has only so many
nodes and the library only so many rules, the chains from one tree are bounded. -/
namespace TreeTidy.Rules

open SyntaxTree

variable {r : Rule} {t u : SyntaxTree} {n : NodeId} {res : Resolver}

/-- A rule of the library, with whatever constraints on the order. -/
def IsStandard (r : Rule) : Prop := ∃ q ∈ all, q.SameWork r

theorem isStandard_of_mem (hr : r ∈ all) : IsStandard r := ⟨r, hr, _, _, rfl⟩

theorem IsStandard.reliable (h : IsStandard r) : Reliable r := by
  obtain ⟨q, hq, after, before, rfl⟩ := h
  have hr := reliable_all q hq
  refine ⟨fun ht hl hn x es => ?_, hr.alike⟩
  have ho := hr.tried ht hl hn x es
  generalize (q.act _).runFrom x _ es = o at ho
  cases ho with
  | idle => exact .idle
  | rewritten hu => exact .rewritten hu
  | refused hid hroot hk => exact .refused hid hroot hk

/-- One rule of the library changes the tree at an attached node. -/
def Rewriting (res : Resolver) (t u : SyntaxTree) : Prop :=
  ∃ r ∈ all, ∃ n x es, t.isAttached n = true ∧ x.resolver = res ∧
    u = ((r.act n).runFrom x t es).tree ∧ u.revision ≠ t.revision

/-- A rule that is reliable leaves the tree as it is, or makes it better. -/
theorem Reliable.tree_cases (h : Reliable r) (ht : t.Sound) (hn : t.isAttached n = true)
    (x : Edit.Setting) (es : List Event) : (∃ b, ((r.act n).runFrom x t es).value = .ok b) ∧
      (((r.act n).runFrom x t es).tree = t ∨ t.Rewritten ((r.act n).runFrom x t es).tree) := by
  have ho := h.tried ht.linked ht.laid hn x es
  generalize (r.act n).runFrom x t es = o at ho
  cases ho with
  | idle => exact ⟨⟨_, rfl⟩, .inl rfl⟩
  | rewritten hu => exact ⟨⟨_, rfl⟩, .inr hu⟩
  | refused => exact ⟨⟨_, rfl⟩, .inl rfl⟩

theorem Rewriting.rewritten (h : Rewriting res t u) (ht : t.Sound) : t.Rewritten u := by
  obtain ⟨r, hr, n, x, es, hn, -, rfl, hne⟩ := h
  rcases ((reliable_all r hr).tree_cases ht hn x es).2 with he | hu
  · exact absurd (congrArg SyntaxTree.revision he) hne
  · exact hu

theorem Rewriting.sound (h : Rewriting res t u) (ht : t.Sound) : u.Sound :=
  ⟨(h.rewritten ht).linked, (h.rewritten ht).laid⟩

section Ending

/-- Trees cannot get better for ever. -/
theorem rewritten_wf : WellFounded fun u t : SyntaxTree => t.Rewritten u := by
  refine Subrelation.wf (fun {u t} h => ?_)
    (InvImage.wf (fun t : SyntaxTree => t.rootDoc?.getD default) Doc.less_wf)
  obtain ⟨d, e, hd, he, hless, -⟩ := h.less
  rw [InvImage, hd, he]
  exact hless

/-- There is no infinite chain of rewritings, even if the resolver changes on the way. -/
theorem rewriting_ends (ht : t.Sound) :
    ¬ ∃ f : ℕ → SyntaxTree, f 0 = t ∧ ∀ i, ∃ res, Rewriting res (f i) (f (i + 1)) := by
  rintro ⟨f, rfl, hf⟩
  have hs : ∀ i, (f i).Sound := by
    intro i
    induction i with
    | zero => exact ht
    | succ i ih =>
      obtain ⟨res, h⟩ := hf i
      exact h.sound ih
  refine (wellFounded_iff_isEmpty_descending_chain.mp rewritten_wf).false ⟨f, ?_⟩
  intro i
  obtain ⟨res, h⟩ := hf i
  exact h.rewritten (hs i)

/-- No chain of rewritings from the tree has more members. -/
def Bounded (res : Resolver) : Nat → SyntaxTree → Prop
  | 0, t => ∀ u, ¬ Rewriting res t u
  | k + 1, t => ∀ u, Rewriting res t u → Bounded res k u

theorem Bounded.succ {k : Nat} (h : Bounded res k t) : Bounded res (k + 1) t := by
  induction k generalizing t with
  | zero => exact fun u hu => absurd hu (h u)
  | succ k ih => exact fun u hu => ih (h u hu)

theorem Bounded.mono {k l : Nat} (h : Bounded res k t) (hl : k ≤ l) : Bounded res l t := by
  induction hl with
  | refl => exact h
  | step _ ih => exact ih.succ

/-- Where chains have more than one member, they go on with one less. -/
theorem Bounded.after {k : Nat} (h : Bounded res k t)
    (hu : Relation.TransGen (Rewriting res) t u) : ∃ l < k, Bounded res l u := by
  induction hu with
  | single hu =>
    cases k with
    | zero => exact absurd hu (h _)
    | succ k => exact ⟨k, Nat.lt_succ_self k, h _ hu⟩
  | tail _ hu ih =>
    obtain ⟨l, hl, hb⟩ := ih
    cases l with
    | zero => exact absurd hu (hb _)
    | succ l => exact ⟨l, by omega, hb _ hu⟩

/-- All trees that come of one rewriting. -/
def successors (res : Resolver) (t : SyntaxTree) : List SyntaxTree :=
  all.flatMap fun r => (List.range t.size).map fun n => ((r.act n).runFrom ⟨res, r.id, 0⟩ t []).tree

theorem Rewriting.mem_successors (h : Rewriting res t u) (ht : t.Sound) : u ∈ successors res t := by
  obtain ⟨r, hr, n, x, es, hn, hx, rfl, -⟩ := h
  refine List.mem_flatMap.mpr ⟨r, hr, List.mem_map.mpr ⟨n, ?_, ?_⟩⟩
  · exact List.mem_range.mpr (lt_of_alive (attached_alive hn))
  · exact (reliable_all r hr).alike ht.linked ht.laid hn hx.symm [] es

theorem exists_bounded (res : Resolver) (ht : t.Sound) : ∃ k, Bounded res k t := by
  induction t using rewritten_wf.induction with
  | _ t ih =>
    have hall : ∀ us : List SyntaxTree, ∃ k, ∀ u ∈ us, Rewriting res t u → Bounded res k u := by
      intro us
      induction us with
      | nil => exact ⟨0, nofun⟩
      | cons u us ihus =>
        obtain ⟨k, hk⟩ := ihus
        by_cases hu : Rewriting res t u
        · obtain ⟨l, hl⟩ := ih u (hu.rewritten ht) (hu.sound ht)
          refine ⟨max k l, List.forall_mem_cons.mpr ⟨fun _ => hl.mono (le_max_right k l), ?_⟩⟩
          exact fun v hv hw => (hk v hv hw).mono (le_max_left k l)
        · exact ⟨k, List.forall_mem_cons.mpr ⟨fun h => absurd h hu, hk⟩⟩
    obtain ⟨k, hk⟩ := hall (successors res t)
    exact ⟨k + 1, fun u hu => hk u (hu.mem_successors ht) hu⟩

end Ending

section Passes

variable {rules : List Rule} {c : Session.Setting} {s s' : Session.State}

theorem tame (hr : ∀ r ∈ rules, IsStandard r) (res : Resolver) : Session.Tame Sound rules res where
  linked ht := ht.linked
  whole hmem ht hn _ x _ es := ((hr _ hmem).reliable.tree_cases ht hn x es).1
  kept hmem ht hn _ x _ es := by
    rcases ((hr _ hmem).reliable.tree_cases ht hn x es).2 with he | hu
    · rwa [he]
    · exact ⟨hu.linked, hu.laid⟩

/-- In a pass, the tree is rewritten as often as changes are counted. -/
theorem rewriting_of_turns (hc : ∀ r ∈ c.rules, IsStandard r) (h : Session.Turns c s s')
    (hs : s.tree.Sound) : Relation.ReflTransGen (Rewriting c.resolver) s.tree s'.tree ∧
      (s'.applied = s.applied → s'.tree = s.tree) := by
  induction h with
  | refl => exact ⟨.refl, fun _ => rfl⟩
  | @tail s₁ s₂ hturns hturn ih =>
    have hk := Session.Turns.kept (tame hc c.resolver) hturns hs
    have hle := hk.2.applied_le
    cases hturn with
    | @idle r n hr hn ha hrev =>
      have he : (Session.tried c r n s₁).tree = s₁.tree := by
        rcases ((hc r hr).reliable.tree_cases hk.1 hn _ s₁.events).2 with he | hu
        · exact he
        · have := hu.revision
          rw [← Session.tried, hrev] at this
          omega
      exact ⟨by rw [Session.State.idled, he]; exact ih.1, fun h => he.trans (ih.2 h)⟩
    | @change r n hr hn ha hrev =>
      obtain ⟨q, hq, _, _, rfl⟩ := hc r hr
      refine ⟨ih.1.tail ⟨q, hq, n, _, _, hn, rfl, rfl, hrev⟩, ?_⟩
      intro h
      have : s₁.applied + 1 = s.applied := h
      omega
    | capped hr => exact ih

end Passes

end TreeTidy.Rules
