import TreeTidy.Proofs.Engine.Stops
import TreeTidy.Proofs.Rules.Rewriting
import TreeTidy.Proofs.Tree.Built
/-!
Sessions of the library end. A visit either rewrites the tree, or goes on with less to be visited; and
with more passes than a chain of rewritings can have members, one of them changes nothing.
-/
namespace TreeTidy.Rules

open SyntaxTree Session

variable {c : Session.Setting} {k : Nat} {work : List NodeId} {s s' : State} {rules : List Rule}
  {res : Resolver} {limits : Limits}

section

variable (hc : ∀ r ∈ c.rules, IsStandard r) (hs : s.tree.Sound)
include hc hs

/-- Turns that count a change use up members of the chains that are left. -/
theorem bounded_of_turns (h : Turns c s s') (ha : s'.applied ≠ s.applied)
    (hb : Bounded c.resolver k s.tree) : ∃ l < k, Bounded c.resolver l s'.tree := by
  have hon := (Turns.kept (tame hc c.resolver) h hs).2
  apply hb.after
  rcases Relation.reflTransGen_iff_eq_or_transGen.mp (rewriting_of_turns hc h hs).1 with he | hu
  · exact absurd (hon.idle.mpr (congrArg SyntaxTree.revision he)) ha
  · exact hu

theorem visit_ends (hb : Bounded c.resolver k s.tree) (work : List NodeId) :
    ∃ fuel s', visit c fuel work s = some s' := by
  induction k using Nat.strong_induction_on generalizing s work with
  | _ k ihk =>
    induction hl : s.tree.load work using Nat.strong_induction_on generalizing s work with
    | _ l ihl =>
      cases work with
      | nil => exact ⟨0, s, rfl⟩
      | cons n work =>
        by_cases hn : s.tree.isAttached n = true
        · have ho := offerAll_turns (tame hc c.resolver) 0 (fun r hr => hr) hs hn
          have hkept := Turns.kept (tame hc c.resolver) ho.1 hs
          by_cases ha : (offerAll c 0 c.rules n s).2.applied = s.applied
          · -- nothing was changed, and the children take the place of the node
            have he := (rewriting_of_turns hc ho.1 hs).2 ha
            have hsome := offerAll_of_idle (tame hc c.resolver) 0 (fun r hr => hr) hs hn ha
            have hless : s.tree.load (s.tree.children n ++ work) + 1 = s.tree.load (n :: work) :=
              hs.linked.load_children
            obtain ⟨fuel, s', h⟩ := ihl (s.tree.load (s.tree.children n ++ work)) (by omega)
              hkept.1 (by rwa [he]) (s.tree.children n ++ work) (by rw [he])
            refine ⟨fuel + 1, s', ?_⟩
            rw [visit_step hn, worklist, hsome]
            rwa [← he] at h
          · obtain ⟨l', hl', hb'⟩ := bounded_of_turns hc hs ho.1 ha hb
            obtain ⟨fuel, s', h⟩ := ihk l' hl' hkept.1 hb' (worklist work (offerAll c 0 c.rules n s))
            exact ⟨fuel + 1, s', (visit_step hn fuel work).trans h⟩
        · obtain ⟨fuel, s', h⟩ := ihl (s.tree.load work) (by
            have := (s.tree.doc n).size_pos
            rw [load_cons] at hl
            omega) hs hb work rfl
          exact ⟨fuel + 1, s', by rw [visit, if_pos (by simp [hn]), h]⟩

/-- With enough fuel, every pass comes to its end. -/
theorem pass_ends : ∃ least s', ∀ fuel, least ≤ fuel → pass c fuel s = some s' := by
  obtain ⟨k, hb⟩ := exists_bounded c.resolver hs
  cases hr : s.tree.root with
  | none => exact ⟨0, { s with applied := 0 }, fun fuel _ => by rw [Session.pass, hr]⟩
  | some r =>
    obtain ⟨least, s', h⟩ := visit_ends (s := { s with applied := 0 }) hc hs hb [r]
    have hp : pass c least s = some s' := by
      rw [Session.pass, hr]
      exact h
    exact ⟨least, s', fun fuel hf => pass_mono hp hf⟩

/-- A pass that counts changes uses up members of the chains that are left. -/
theorem bounded_of_pass {fuel : Nat} (h : pass c fuel s = some s') (ha : s'.applied ≠ 0)
    (hb : Bounded c.resolver k s.tree) : ∃ l < k, Bounded c.resolver l s'.tree :=
  bounded_of_turns (s := { s with applied := 0 }) hc hs (pass_turns (tame hc c.resolver) hs h) ha hb

end

/-- With enough fuel, every session comes to its end, always with the same result. -/
theorem runFrom_ends (hr : ∀ r ∈ rules, IsStandard r) (hs : s.tree.Sound) (left : Nat)
    (o : RunOutcome) :
    ∃ least r, ∀ fuel, least ≤ fuel → runFrom rules res limits fuel left o s = some r := by
  induction left generalizing o s with
  | zero =>
    obtain ⟨least, s', h⟩ := pass_ends (c := ⟨rules, res, limits, o.passes + 1⟩) hr hs
    refine ⟨least, ?_⟩
    simp only [runFrom, finish, probe]
    exact ⟨_, fun fuel hf => by rw [h fuel hf]; rfl⟩
  | succ left ih =>
    obtain ⟨least, s', h⟩ := pass_ends (c := ⟨rules, res, limits, o.passes + 1⟩) hr hs
    by_cases ha : s'.applied = 0
    · exact ⟨least, _, fun fuel hf => by rw [runFrom, h fuel hf]; exact if_pos ha⟩
    · have hs' := (Turns.kept (tame hr res) (pass_turns (tame hr res) hs (h least (le_refl _))) hs).1
      obtain ⟨least', r, h'⟩ := ih hs' ⟨true, false, o.passes + 1, o.applied + s'.applied⟩
      refine ⟨max least least', r, ?_⟩
      intro fuel hf
      rw [runFrom, h fuel (by omega)]
      simp only [if_neg ha]
      exact h' fuel (by omega)

theorem run_ends {t : SyntaxTree} (hr : ∀ r ∈ rules, IsStandard r) (hs : t.Sound) (res : Resolver)
    (limits : Limits) :
    ∃ least r, ∀ fuel, least ≤ fuel → run rules res limits fuel t = some r := by
  have hs' : (⟨t, [], [], 0⟩ : State).tree.Sound := hs
  exact runFrom_ends hr hs' limits.passBound ⟨false, false, 0, 0⟩

/-- With as many passes as chains have members, a session converges. -/
theorem converged_of_bounded {fuel left : Nat} {o : RunOutcome} {r : Result}
    (hr : ∀ r ∈ rules, IsStandard r) (hs : s.tree.Sound) (hb : Bounded res k s.tree) (hk : k ≤ left)
    (h : runFrom rules res limits fuel left o s = some r) : r.outcome.converged = true := by
  induction left generalizing k o s with
  | zero =>
    rw [runFrom, finish, probe, Option.map_map] at h
    obtain ⟨s', hp, rfl⟩ := Option.map_eq_some_iff.mp h
    apply decide_eq_true
    by_contra ha
    obtain ⟨l, hl, -⟩ := bounded_of_pass (c := ⟨rules, res, limits, o.passes + 1⟩) hr hs hp ha hb
    omega
  | succ left ih =>
    rw [runFrom] at h
    split at h
    · cases h
    next s' hp =>
      split at h
      · cases h
        rfl
      next ha =>
        obtain ⟨l, hl, hb'⟩ :=
          bounded_of_pass (c := ⟨rules, res, limits, o.passes + 1⟩) hr hs hp ha hb
        have hs' := (Turns.kept (tame hr res) (pass_turns (tame hr res) hs hp) hs).1
        exact ih hs' hb' (by omega) h

/-- Rewriting by the library ends: chains of rewritings do, passes do, and for every tree and resolver
there is a number of passes that suffices for every selection of the rules, with all limits. -/
theorem standard_rewriting_ends {t : SyntaxTree} (ht : t.Linked) (hl : t.Laid) :
    (¬ ∃ f : ℕ → SyntaxTree, f 0 = t ∧ ∀ i, ∃ res, Rewriting res (f i) (f (i + 1))) ∧
    (∀ (c : Session.Setting) (s : State), (∀ r ∈ c.rules, IsStandard r) → s.tree = t →
      ∃ least s', ∀ fuel, least ≤ fuel → pass c fuel s = some s') ∧
    ∀ res, ∃ k, ∀ (rules : List Rule) (limits : Limits), (∀ r ∈ rules, IsStandard r) →
      k ≤ limits.passBound → ∃ least, ∀ fuel, least ≤ fuel → ∃ r,
        run rules res limits fuel t = some r ∧ r.outcome.converged = true := by
  have hs : t.Sound := ⟨ht, hl⟩
  refine ⟨rewriting_ends hs, ?_, ?_⟩
  · intro c s hc he
    exact pass_ends hc (by rwa [he])
  · intro res
    obtain ⟨k, hb⟩ := exists_bounded res hs
    refine ⟨k, ?_⟩
    intro rules limits hr hk
    obtain ⟨least, r, h⟩ := run_ends hr hs res limits
    exact ⟨least, fun fuel hf => ⟨r, h fuel hf, converged_of_bounded hr hs hb hk (h fuel hf)⟩⟩

/-- All rules together converge on a double negation of a negation. -/
theorem negations_converge : ∃ u, SourceUnit.ofDoc 1 ⟨"T.java", .standard, [], .plain (.unary .not)
      [some (.plain (.unary .not) [some (.plain (.unary .not) [some (.plain (.nameExpr "x") [] [])]
        [])] [])] []⟩ = .ok u ∧ u.tree.Linked ∧ u.tree.Laid ∧
    ∃ k, ∀ limits : Limits, k ≤ limits.passBound → ∃ least, ∀ fuel, least ≤ fuel → ∃ r,
      run all .unresolved limits fuel u.tree = some r ∧ r.outcome.converged = true := by
  obtain ⟨u, hu⟩ : ∃ u, SourceUnit.ofDoc 1 ⟨"T.java", .standard, [], .plain (.unary .not)
    [some (.plain (.unary .not) [some (.plain (.unary .not) [some (.plain (.nameExpr "x") [] [])]
      [])] [])] []⟩ = .ok u := ⟨_, rfl⟩
  have hs := (SourceUnit.ofDoc_sound hu).1
  obtain ⟨k, hk⟩ := (standard_rewriting_ends hs.linked hs.laid).2.2 .unresolved
  exact ⟨u, hu, hs.linked, hs.laid, k, fun limits => hk all limits fun _ => isStandard_of_mem⟩

end TreeTidy.Rules

/-! Rules of the library put one node in the place of others at most, so a pass of theirs opens no node twice. -/
namespace TreeTidy

open SyntaxTree Session

variable {x : Edit.Setting} {t : SyntaxTree}

/-- Making nodes is no change, so it is the rest that counts. -/
theorem Step.inOrder_performAll {α : Type} {f : List NodeId → Edit α} (hf : ∀ made t, (f made).InOrder x t)
    (steps : List Step) (made : List NodeId) (t : SyntaxTree) :
    ((Step.performAll made steps).andThen f).InOrder x t := by
  induction steps generalizing made t with
  | nil => exact hf made t
  | cons s steps ih =>
    cases s with
    | copy n => exact ih _ _
    | make kind span slots list =>
      simp only [Step.performAll, Step.perform, Edit.make, Edit.andThen, Edit.InOrder]
      split
      · exact ih _ _
      · trivial

theorem Commit.inOrder (c : Commit) (made : List NodeId) (t : SyntaxTree) : (c.change made).InOrder t := by
  cases c with
  | replace site r => trivial
  | remove site => trivial
  | splice first count r => exact (List.pairwise_singleton _ _).filter _

theorem Plan.inOrder (p : Plan) (x : Edit.Setting) (t : SyntaxTree) : p.perform.InOrder x t := by
  refine Step.inOrder_performAll (fun made t => ?_) p.steps [] t
  rw [Edit.InOrder]
  split
  · exact ⟨p.commit.inOrder made t, trivial⟩
  · trivial

namespace Rules

theorem planned_all : ∀ q ∈ all, ∃ plan, q.act = (Rule.ofPlan q.info q.granularity plan).act := by
  simp only [all, List.forall_mem_cons]
  repeat' apply And.intro
  all_goals first | exact ⟨_, rfl⟩ | exact List.forall_mem_nil _

theorem IsStandard.inOrder {r : Rule} (h : IsStandard r) (n : NodeId) (x : Edit.Setting) (t : SyntaxTree) :
    (r.act n).InOrder x t := by
  obtain ⟨q, hq, after, before, rfl⟩ := h
  obtain ⟨plan, hplan⟩ := planned_all q hq
  show (q.act n).InOrder x t
  rw [hplan]
  simp only [Rule.ofPlan, Edit.InOrder]
  split
  · exact Plan.inOrder _ x t
  · trivial

/-- In a pass of the library no node is the first of two stops, and none is opened in two of them. -/
theorem standard_opens_once {c : Session.Setting} {s : State} (hc : ∀ r ∈ c.rules, IsStandard r)
    (hs : s.tree.Steady) (fuel : Nat) : Once [] [] (passStops c fuel s).1 := by
  refine passStops_once hs fuel fun x hx => ?_
  exact (hc x.rule (rule_mem_of_passCalls hs.linked fuel x hx)).inOrder x.node _ x.before.tree

end Rules

end TreeTidy
