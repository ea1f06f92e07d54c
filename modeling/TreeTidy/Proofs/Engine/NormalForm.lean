import TreeTidy.Proofs.Engine.Visits
import TreeTidy.Proofs.Tree.Revision
/-!
Normal forms. For rules that see nothing but the document, a session converges if and only if no rule
would change the tree any more: the nodes that a pass without changes offers are all that are attached.
-/
namespace TreeTidy

open SyntaxTree

/-- A rule that never breaks off, and of which the document alone decides where it changes the tree. -/
structure Rule.Local (r : Rule) (res : Resolver) : Prop where
  whole : ∀ {t n}, t.Linked → t.isAttached n = true →
    r.granularity.admits (t.kind n).category = true → ∀ x : Edit.Setting, x.resolver = res →
    ∃ b, ((r.act n).runFrom x t []).value = .ok b
  same : ∀ {t u n m way}, t.Linked → u.Linked → t.rootDoc? = u.rootDoc? →
    t.rootAt? way = some n → u.rootAt? way = some m → ∀ x y : Edit.Setting, x.resolver = res →
    y.resolver = res → (r.Rewrites x t n ↔ r.Rewrites y u m)

/-- No rule would change the tree at a node that is offered to it. -/
def NormalForm (rules : List Rule) (res : Resolver) (t : SyntaxTree) : Prop :=
  ∀ r ∈ rules, ∀ n, t.isAttached n = true → ∀ x : Edit.Setting, x.resolver = res →
    ¬ r.Rewrites x t n

theorem Rule.Local.rewrites_iff {r : Rule} {res : Resolver} {t u : SyntaxTree} {n : NodeId}
    (h : r.Local res) (hg : t.Grown u) (ht : t.Linked) (hu : u.Linked) (hn : t.isAttached n = true)
    {x y : Edit.Setting} (hx : x.resolver = res) (hy : y.resolver = res) :
    r.Rewrites x t n ↔ r.Rewrites y u n := by
  obtain ⟨way, hw⟩ := ht.exists_rootAt? hn
  exact h.same ht hu (hg.rootDoc? ht).symm hw ((hg.rootAt? ht way).trans hw) x y hx hy

theorem NormalForm.later {rules : List Rule} {res : Resolver} {t u : SyntaxTree}
    (h : NormalForm rules res t) (hr : ∀ r ∈ rules, r.Local res) (hg : t.Grown u) (ht : t.Linked)
    (hu : u.Linked) : NormalForm rules res u := by
  intro r hmem n hn x hx hw
  have hn' := (hg.attached_iff ht hu).mp hn
  exact h r hmem n hn' x hx (((hr r hmem).rewrites_iff hg ht hu hn' hx hx).mpr hw)

namespace Session

variable {c : Setting} {r : Rule} {n : NodeId} {s s' : State} {rules : List Rule} {res : Resolver}
  {fuel : Nat} {work : List NodeId}

theorem tame_of_local (hr : ∀ r ∈ rules, r.Local res) : Tame Linked rules res where
  linked ht := ht
  whole hmem ht hn ha x hx es := by
    rw [(Edit.runFrom_events x _ _ es []).1]
    exact (hr _ hmem).whole ht hn ha x hx
  kept hmem ht hn ha x hx es := (Edit.runFrom_edited ht x _ es).linked

/-- No rule changes the tree at the node. -/
def Calm (c : Setting) (t : SyntaxTree) (n : NodeId) : Prop :=
  ∀ r ∈ c.rules, ¬ r.Rewrites (c.of r) t n

theorem not_under_nil {t : SyntaxTree} {m : NodeId} : ¬ t.Under [] m := by
  simp [Under]

theorem under_cons {t : SyntaxTree} {m : NodeId} : t.Under (n :: work) m ↔
    m = n ∨ t.Under (t.children n ++ work) m := by
  simp only [Under, List.mem_cons, List.mem_append, exists_eq_or_imp]
  rw [within_iff_child]
  constructor
  · rintro ((rfl | ⟨a, ha, hm⟩) | ⟨a, ha, hm⟩)
    · exact .inl rfl
    · exact .inr ⟨a, .inl ha, hm⟩
    · exact .inr ⟨a, .inr ha, hm⟩
  · rintro (rfl | ⟨a, ha | ha, hm⟩)
    · exact .inl (.inl rfl)
    · exact .inl (.inr ⟨a, ha, hm⟩)
    · exact .inr ⟨a, ha, hm⟩

section

variable (hl : ∀ r ∈ c.rules, r.Local c.resolver) (hs : s.tree.Linked) (hd : s.disabled = [])
include hl hs

/-- What is calm stays so while nothing is changed. -/
theorem calm_iff (h : Onward s s') (ha : s'.applied = s.applied) (hn : s.tree.isAttached n = true) :
    Calm c s'.tree n ↔ Calm c s.tree n :=
  forall₂_congr fun r hr =>
    not_congr ((hl r hr).rewrites_iff (h.grown ha) hs h.tree.linked hn rfl rfl).symm

include hd

theorem offerAll_applied (i : Nat) (hr : ∀ r ∈ rules, r ∈ c.rules)
    (hn : s.tree.isAttached n = true) : (offerAll c i rules n s).2.applied = s.applied ↔
      ∀ r ∈ rules, ¬ r.Rewrites (c.of r) s.tree n := by
  induction rules generalizing i s with
  | nil => exact ⟨fun _ => nofun, fun _ => rfl⟩
  | cons r rules ih =>
    have hr₂ := (List.forall_mem_cons.mp hr).2
    rw [List.forall_mem_cons]
    rcases offerAll_cons (tame_of_local hl) i hr hs hn with
      ⟨hw, hlt⟩ | ⟨s₁, hturns, ha, he, hidle⟩
    · exact ⟨fun h => absurd h (ne_of_gt hlt), fun h => absurd hw h.1⟩
    · have hk := (Turns.kept (tame_of_local hl) hturns hs).2
      have hih := ih hk.tree.linked (hk.disabled.trans hd) (i + 1) hr₂ (hk.attached hs ha hn)
      have hrest : (∀ q ∈ rules, ¬ q.Rewrites (c.of q) s₁.tree n) ↔
          ∀ q ∈ rules, ¬ q.Rewrites (c.of q) s.tree n := forall₂_congr fun q hq =>
        not_congr ((hl q (hr₂ q hq)).rewrites_iff (hk.grown ha) hs hk.tree.linked hn rfl rfl).symm
      rw [he, ← ha, hih, hrest]
      exact ⟨fun h => ⟨(hidle hd).1, h⟩, fun h => h.2⟩

/-- A node is offered, and its children come next if nothing was changed. -/
theorem visit_cons (hn : s.tree.isAttached n = true) (work : List NodeId) :
    (Calm c s.tree n ∧ ∃ s₁, Onward s s₁ ∧ s₁.applied = s.applied ∧
      ∀ fuel, visit c (fuel + 1) (n :: work) s = visit c fuel (s.tree.children n ++ work) s₁) ∨
    (¬ Calm c s.tree n ∧ ∀ fuel s', visit c (fuel + 1) (n :: work) s = some s' →
      s.applied < s'.applied) := by
  have hc := tame_of_local hl
  have ho := offerAll_turns hc 0 (fun r hr => hr) hs hn
  have hk := Turns.kept hc ho.1 hs
  have hiff := offerAll_applied hl hs hd 0 (fun r hr => hr) hn
  by_cases ha : (offerAll c 0 c.rules n s).2.applied = s.applied
  · refine .inl ⟨hiff.mp ha, _, hk.2, ha, ?_⟩
    intro fuel
    have hsome := offerAll_of_idle hc 0 (fun r hr => hr) hs hn ha
    have hch := (hk.2.grown ha).children (lt_of_alive (attached_alive hn))
    rw [visit, if_neg (by simp [hn])]
    generalize offerAll c 0 c.rules n s = o at hsome hch
    obtain ⟨o, s₁⟩ := o
    subst hsome
    rw [← hch]
  · refine .inr ⟨fun h => ha (hiff.mpr h), ?_⟩
    intro fuel s' h
    have hlater := (Turns.kept hc (turns_of_visit hc hs hn h) hk.1).2.applied_le
    have hle := hk.2.applied_le
    omega

/-- A visit without a change says that all nodes it was to reach are calm, and the other way round. -/
theorem visit_applied (hw : ∀ n ∈ work, s.tree.isAttached n = true)
    (h : visit c fuel work s = some s') :
    s'.applied = s.applied ↔ ∀ m, s.tree.Under work m → Calm c s.tree m := by
  induction fuel generalizing work s with
  | zero =>
    cases work with
    | nil =>
      cases h
      exact ⟨fun _ m hm => absurd hm not_under_nil, fun _ => rfl⟩
    | cons n work => cases h
  | succ fuel ih =>
    cases work with
    | nil =>
      cases h
      exact ⟨fun _ m hm => absurd hm not_under_nil, fun _ => rfl⟩
    | cons n work =>
      obtain ⟨hn, hwork⟩ := List.forall_mem_cons.mp hw
      rcases visit_cons hl hs hd hn work with ⟨hcalm, s₁, hk, ha, hv⟩ | ⟨hcalm, hlt⟩
      · rw [hv] at h
        have hatt : ∀ a ∈ s.tree.children n ++ work, s.tree.isAttached a = true := by
          intro a hm
          rcases List.mem_append.mp hm with hm | hm
          · exact hs.attached_child hn hm
          · exact hwork a hm
        have hg := hk.grown ha
        rw [← ha, ih hk.tree.linked (hk.disabled.trans hd)
          (fun a hm => hk.attached hs ha (hatt a hm)) h]
        have hunder : ∀ m, s₁.tree.Under (s.tree.children n ++ work) m ↔
            s.tree.Under (s.tree.children n ++ work) m := by
          intro m
          exact exists_congr fun a => and_congr_right fun hm =>
              hg.within_iff hs (lt_of_alive (attached_alive (hatt a hm)))
        have hcalms : ∀ m, s.tree.Under (s.tree.children n ++ work) m →
            (Calm c s₁.tree m ↔ Calm c s.tree m) := fun m ⟨a, hm, hma⟩ =>
          calm_iff hl hs hk ha (hs.attached_of_within (hatt a hm) hma)
        simp only [under_cons, hunder]
        constructor
        · rintro h m (rfl | hm)
          · exact hcalm
          · exact (hcalms m hm).mp (h m hm)
        · exact fun h m hm => (hcalms m hm).mpr (h m (.inr hm))
      · refine ⟨fun he => absurd he (ne_of_gt (hlt fuel s' h)), fun h => absurd ?_ hcalm⟩
        exact h n (under_cons.mpr (.inl rfl))

/-- With nothing to change, every node to be reached takes one step. -/
theorem visit_isSome (hw : ∀ n ∈ work, s.tree.isAttached n = true)
    (hcalm : ∀ m, s.tree.Under work m → Calm c s.tree m) :
    (visit c fuel work s).isSome = true ↔ s.tree.load work ≤ fuel := by
  induction fuel generalizing work s with
  | zero =>
    cases work with
    | nil => exact ⟨fun _ => le_refl _, fun _ => rfl⟩
    | cons n work =>
      have hpos := (s.tree.doc n).size_pos
      rw [load_cons]
      exact ⟨nofun, fun h => by omega⟩
  | succ fuel ih =>
    cases work with
    | nil => exact ⟨fun _ => Nat.zero_le _, fun _ => rfl⟩
    | cons n work =>
      obtain ⟨hn, hwork⟩ := List.forall_mem_cons.mp hw
      rcases visit_cons hl hs hd hn work with ⟨-, s₁, hk, ha, hv⟩ | ⟨hbusy, -⟩
      · have hatt : ∀ a ∈ s.tree.children n ++ work, s.tree.isAttached a = true := by
          intro a hm
          rcases List.mem_append.mp hm with hm | hm
          · exact hs.attached_child hn hm
          · exact hwork a hm
        have hg := hk.grown ha
        have hload : s₁.tree.load (s.tree.children n ++ work) =
            s.tree.load (s.tree.children n ++ work) :=
          congrArg List.sum (List.map_congr_left fun a hm => by
            rw [hg.doc hs (lt_of_alive (attached_alive (hatt a hm)))])
        have hless : s.tree.load (s.tree.children n ++ work) + 1 = s.tree.load (n :: work) :=
          hs.load_children
        rw [hv, ih hk.tree.linked (hk.disabled.trans hd) (fun a hm => hk.attached hs ha (hatt a hm))
          fun m ⟨a, hm, hma⟩ => ?_, hload]
        · omega
        · have hma := (hg.within_iff hs (lt_of_alive (attached_alive (hatt a hm)))).mp hma
          exact (calm_iff hl hs hk ha (hs.attached_of_within (hatt a hm) hma)).mpr
            (hcalm m (under_cons.mpr (.inr ⟨a, hm, hma⟩)))
      · exact absurd (hcalm n (under_cons.mpr (.inl rfl))) hbusy

/-- A pass counts no change if and only if the tree is in normal form. -/
theorem pass_applied (h : pass c fuel s = some s') :
    s'.applied = 0 ↔ NormalForm c.rules c.resolver s.tree := by
  have hcalm : NormalForm c.rules c.resolver s.tree ↔
      ∀ m, s.tree.isAttached m = true → Calm c s.tree m := by
    refine ⟨fun h m hm r hr => h r hr m hm (c.of r) rfl, ?_⟩
    intro h r hr m hm x hx hw
    exact h m hm r hr (((hl r hr).rewrites_iff (.refl _) hs hs hm hx rfl).mp hw)
  rw [hcalm]
  rw [pass] at h
  split at h
  next hr =>
    cases h
    refine ⟨?_, fun _ => rfl⟩
    intro _ m hm
    obtain ⟨r, hr', -⟩ := hs.isAttached_iff.mp hm
    rw [hr] at hr'
    cases hr'
  next r hr =>
    have hroot : ∀ n ∈ [r], s.tree.isAttached n = true := by
      intro n hn
      exact List.mem_singleton.mp hn ▸ hs.attached_root hr
    rw [show s'.applied = 0 ↔ _ from visit_applied (s := { s with applied := 0 }) hl hs hd hroot h]
    apply forall_congr'
    intro m
    rw [hs.isAttached_iff]
    simp [Under, hr]

/-- A pass over a tree in normal form takes as many steps as nodes are attached. -/
theorem pass_isSome (hn : NormalForm c.rules c.resolver s.tree) :
    (pass c fuel s).isSome = true ↔ s.tree.load s.tree.root.toList ≤ fuel := by
  rw [pass]
  split
  next hr =>
    rw [hr]
    exact ⟨fun _ => Nat.zero_le _, fun _ => rfl⟩
  next r hr =>
    rw [hr]
    have hroot : ∀ n ∈ [r], s.tree.isAttached n = true := by
      intro n hn
      exact List.mem_singleton.mp hn ▸ hs.attached_root hr
    apply visit_isSome (s := { s with applied := 0 }) hl hs hd hroot
    intro m hm r hr
    obtain ⟨a, ha, hma⟩ := hm
    exact hn r hr m (hs.attached_of_within (hroot a ha) hma) (c.of r) rfl

end

section Runs

variable {limits : Limits} {t : SyntaxTree} {r : Result}

/-- The number of attached nodes is a matter of the document. -/
theorem load_root (t : SyntaxTree) : t.load t.root.toList = (t.rootDoc?.map Doc.size).getD 0 := by
  rw [rootDoc?]
  cases t.root <;> rfl

variable (hl : ∀ r ∈ rules, r.Local res)
include hl

theorem runFrom_normalForm {left : Nat} {o : RunOutcome} (hs : s.tree.Linked)
    (hd : s.disabled = []) (h : runFrom rules res limits fuel left o s = some r) :
    r.tree.Linked ∧ r.outcome.passes ≤ o.passes + left ∧
    (r.outcome.converged = true ↔ NormalForm rules res r.tree) ∧
    (r.outcome.converged = true → r.tree.load r.tree.root.toList ≤ fuel) := by
  induction left generalizing o s with
  | zero =>
    rw [runFrom, finish, probe, Option.map_map] at h
    obtain ⟨s', hp, rfl⟩ := Option.map_eq_some_iff.mp h
    have hiff := pass_applied (c := ⟨rules, res, limits, o.passes + 1⟩) hl hs hd hp
    refine ⟨hs, le_refl _, decide_eq_true_iff.trans hiff, ?_⟩
    intro hconv
    refine (pass_isSome hl hs hd (hiff.mp (of_decide_eq_true hconv))).mp ?_
    exact Option.isSome_iff_exists.mpr ⟨s', hp⟩
  | succ left ih =>
    rw [runFrom] at h
    split at h
    · cases h
    next s₁ hp =>
      have hiff := pass_applied (c := ⟨rules, res, limits, o.passes + 1⟩) hl hs hd hp
      have hk := (Turns.kept (tame_of_local hl) (pass_turns (tame_of_local hl) hs hp) hs).2
      split at h
      next ha =>
        cases h
        have hg := hk.grown ha
        have hn := hiff.mp ha
        have hload := (pass_isSome hl hs hd hn).mp (Option.isSome_iff_exists.mpr ⟨s₁, hp⟩)
        refine ⟨hk.tree.linked, Nat.le_add_right _ _,
          ⟨fun _ => hn.later hl hg hs hk.tree.linked, fun _ => rfl⟩, ?_⟩
        intro _
        rw [load_root, hg.rootDoc? hs, ← load_root]
        exact hload
      · have hih := ih hk.tree.linked (hk.disabled.trans hd) h
        refine ⟨hih.1, ?_, hih.2.2⟩
        have hle := hih.2.1
        simp only at hle
        omega

/-- A session over a tree in normal form changes nothing and ends in its first pass. -/
theorem run_of_normalForm (ht : t.Linked) (hn : NormalForm rules res t)
    (hf : t.load t.root.toList ≤ fuel) : ∃ r, run rules res limits fuel t = some r ∧
      r.outcome = ⟨false, true, 0, 0⟩ ∧ t.SameAttached r.tree := by
  have hc := tame_of_local hl
  obtain ⟨s', hp⟩ := Option.isSome_iff_exists.mp ((pass_isSome (c := ⟨rules, res, limits, 1⟩)
    (s := ⟨t, [], [], 0⟩) hl ht rfl hn).mpr hf)
  have ha := (pass_applied (c := ⟨rules, res, limits, 1⟩) hl ht rfl hp).mpr hn
  have hk := (Turns.kept hc (pass_turns hc ht hp) ht).2
  rw [run]
  cases limits.passBound with
  | zero =>
    rw [runFrom, finish, probe, hp]
    exact ⟨_, rfl, by simp [ha], .refl t⟩
  | succ left =>
    rw [runFrom, hp]
    simp only [if_pos ha]
    exact ⟨_, rfl, rfl, (hk.grown ha).sameAttached ht hk.tree.linked⟩

/-- A session converges if and only if it leaves a tree in normal form behind, and then another one
changes nothing. Without passes it leaves the tree as it is. -/
theorem converged_iff_normalForm (ht : t.Linked) (h : run rules res limits fuel t = some r) :
    (r.outcome.converged = true ↔ NormalForm rules res r.tree) ∧
    r.outcome.passes ≤ limits.passBound ∧ (limits.passBound = 0 → r.tree = t) ∧
    (r.outcome.converged = true → ∃ again, run rules res limits fuel r.tree = some again ∧
      again.outcome = ⟨false, true, 0, 0⟩ ∧ r.tree.SameAttached again.tree) := by
  obtain ⟨hr, hpasses, hiff, hload⟩ := runFrom_normalForm hl (s := ⟨t, [], [], 0⟩) ht rfl h
  refine ⟨hiff, ?_, ?_, ?_⟩
  · simpa using hpasses
  · intro hb
    rw [run, hb, runFrom, finish] at h
    obtain ⟨_, -, rfl⟩ := Option.map_eq_some_iff.mp h
    rfl
  · intro hconv
    exact run_of_normalForm hl hr (hiff.mp hconv) (hload hconv)

end Runs

section Example

/-- Puts a block in the place of an empty statement that is the root. -/
def blockAtRoot : Rule where
  info := .ofId "BlockAtRoot"
  granularity := .statement
  act n := .look fun v =>
    if v.tree.root = some n ∧ v.tree.kind n = .emptyStmt then
      (Edit.make ⟨.block, Span.none, none, [], []⟩).andThen fun m => .replace n m
    else .done false

variable {t : SyntaxTree}

theorem runFrom_blockAtRoot (ht : t.Linked) (hr : t.root = some n) (hk : t.kind n = .emptyStmt)
    (x : Edit.Setting) : ∃ u, u.revision = t.revision + 1 ∧
      (blockAtRoot.act n).runFrom x t [] = ⟨.ok true, u, []⟩ := by
  obtain ⟨v, hv⟩ : ∃ v, t.create? ⟨.block, Span.none, none, [], []⟩ = .ok (t.fresh, v) :=
    ⟨_, create?_eq_ok.mpr ⟨le_refl _, loose_iff.mpr unseen_nil, ⟨.nil, fun _ => rfl, fun s hs => by
      cases hs
      exact ⟨le_refl _, nofun⟩⟩, rfl⟩⟩
  have hm := ht.create? hv
  have hn : v.isAttached n = true := (hm.grown.attached_iff ht hm.linked).mpr (ht.attached_root hr)
  have hnp : v.parent? n = none := (hm.linked.root (hm.grown.root.trans hr)).2
  obtain ⟨u, hu⟩ := hm.linked.replace?_isSome hn (.inl (hm.isDetached ht)) fun p _ hp _ => by
    rw [hnp] at hp
    cases hp
  have hrev := hm.linked.revision_appliedTo? (c := .replace n t.fresh) hu
  rw [hm.grown.revision] at hrev
  refine ⟨u, hrev, ?_⟩
  have happ : (Change.replace n t.fresh).appliedTo? v = some u := hu
  simp [blockAtRoot, Edit.runFrom, Edit.make, Edit.andThen, Edit.replace, hr, hk, hv, happ]

theorem blockAtRoot_rewrites (ht : t.Linked) (x : Edit.Setting) : blockAtRoot.Rewrites x t n ↔
    t.root = some n ∧ t.kind n = .emptyStmt := by
  by_cases hc : t.root = some n ∧ t.kind n = .emptyStmt
  · obtain ⟨u, hrev, hrun⟩ := runFrom_blockAtRoot ht hc.1 hc.2 x
    refine iff_of_true ⟨?_, ?_⟩ hc
    · rw [hc.2]
      rfl
    · rw [hrun, hrev]
      exact Nat.succ_ne_self _
  · refine iff_of_false (fun hw => hw.2 ?_) hc
    simp only [blockAtRoot, Edit.runFrom, if_neg hc]

theorem blockAtRoot_local (res : Resolver) : blockAtRoot.Local res where
  whole {t n} ht _ _ x _ := by
    by_cases hc : t.root = some n ∧ t.kind n = .emptyStmt
    · obtain ⟨u, -, hrun⟩ := runFrom_blockAtRoot ht hc.1 hc.2 x
      exact ⟨true, by rw [hrun]⟩
    · exact ⟨false, by simp only [blockAtRoot, Edit.runFrom, if_neg hc]⟩
  same {t u n m way} ht hu hdoc hn hm x y _ _ := by
    have hk : some (t.kind n) = some (u.kind m) := by
      rw [ht.kind_of_rootAt? hn, hu.kind_of_rootAt? hm, hdoc]
    rw [blockAtRoot_rewrites ht, blockAtRoot_rewrites hu, ht.root_iff hn, hu.root_iff hm,
      Option.some.inj hk]

/-- In one pass, an empty statement gives way to a block, and that is the end of it. -/
theorem emptyStmt_converged : ∃ t r, t = history 1
      [.create ⟨.emptyStmt, Span.none, none, [], []⟩, .setRoot 0] ∧ t.Linked ∧
    (∀ q ∈ [blockAtRoot], q.Local .unresolved) ∧
    run [blockAtRoot] .unresolved ⟨1, 1⟩ 1 t = some r ∧ r.outcome.changed = true ∧
    NormalForm [blockAtRoot] .unresolved r.tree := by
  have ht := linked_history 1 [.create ⟨.emptyStmt, Span.none, none, [], []⟩, .setRoot 0]
  have hl : ∀ q ∈ [blockAtRoot], q.Local .unresolved := by
    intro q hq
    exact List.mem_singleton.mp hq ▸ blockAtRoot_local _
  obtain ⟨r, h, hchanged, hconv⟩ : ∃ r, run [blockAtRoot] .unresolved ⟨1, 1⟩ 1 (history 1
      [.create ⟨.emptyStmt, Span.none, none, [], []⟩, .setRoot 0]) = some r ∧
      r.outcome.changed = true ∧ r.outcome.converged = true := ⟨_, rfl, rfl, rfl⟩
  exact ⟨_, r, rfl, ht, hl, h, hchanged, (converged_iff_normalForm hl ht h).1.mp hconv⟩

end Example

end Session

end TreeTidy
