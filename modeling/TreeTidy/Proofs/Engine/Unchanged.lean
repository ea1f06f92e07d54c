import TreeTidy.Proofs.Engine.Turns
/-!
What a session says of the tree when it says that nothing was changed. Nothing is assumed of the rules
here: they may break off wherever they like, also after they have changed the tree. Such a change is not
counted, so that a session may report none although there was one; there is no other way for this to
happen.
-/
namespace TreeTidy.Session

open SyntaxTree

/-- The event of a rule that broke off. -/
def brokenEvent (c : Setting) (r : Rule) (n : NodeId) (s : State) (message : String) : Event :=
  ⟨c.pass, some r.id, some n, s.tree.span n, .panicked message⟩

/-- The state after a rule broke off: it is not used any more, but what it did stays. -/
def State.broken (s : State) (o : Edit.Outcome Bool) (e : Event) (index : Nat) : State :=
  { (s.idled o).record e with disabled := index :: s.disabled }

/-- The least that a pass does, whatever the rules are and wherever they are tried. -/
inductive Try (c : Setting) (s : State) : State → Prop
  | idle {r n} (hr : r ∈ c.rules) (h : (tried c r n s).tree.revision = s.tree.revision) :
      Try c s (s.idled (tried c r n s))
  | change {r n} (hr : r ∈ c.rules) (h : (tried c r n s).tree.revision ≠ s.tree.revision) :
      Try c s (s.changed (tried c r n s) (appliedEvent c r n s))
  | broken {r n m i} (hr : r ∈ c.rules) (h : (tried c r n s).value = .error m) :
      Try c s (s.broken (tried c r n s) (brokenEvent c r n s m) i)
  | capped {r m k} (hr : r ∈ c.rules) :
      Try c s (s.record ⟨c.pass, some r.id, some m, s.tree.span m, .retryCapReached k⟩)

def Tries (c : Setting) : State → State → Prop := Relation.ReflTransGen (Try c)

section Passes

variable {c : Setting} {r : Rule} {n : NodeId} {s s' : State}

theorem invoke_eq_of_broken {m : String} (h : (tried c r n s).value = .error m) :
    invoke c r n s = (.failed, (s.idled (tried c r n s)).record (brokenEvent c r n s m)) := by
  rw [tried] at h
  simp only [invoke, h]
  rfl

theorem offer_tries (hr : r ∈ c.rules) (i left attempts : Nat) (n : NodeId) (s : State) :
    Tries c s (offer c r i left attempts n s).2 := by
  induction left generalizing attempts n s with
  | zero => exact .refl
  | succ left ih =>
    rw [offer]
    split
    · exact .refl
    · cases hv : (tried c r n s).value with
      | error m =>
        rw [invoke_eq_of_broken hv]
        exact .single (.broken hr hv)
      | ok b =>
        by_cases h : (tried c r n s).tree.revision = s.tree.revision
        · rw [invoke_eq_of_idle ⟨b, hv⟩ h]
          exact .single (.idle hr h)
        · have htry := Try.change hr h
          rw [invoke_eq_of_change ⟨b, hv⟩ h]
          generalize s.changed (tried c r n s) (appliedEvent c r n s) = s₁ at htry
          dsimp only
          split
          · exact .single htry
          next m _ =>
            split
            · exact .single htry
            · split
              · exact .tail (.single htry) (.capped hr)
              · exact .head htry (ih (attempts + 1) m s₁)

theorem offerAll_tries (i : Nat) {rules : List Rule} (hr : ∀ r ∈ rules, r ∈ c.rules) (n : NodeId)
    (s : State) : Tries c s (offerAll c i rules n s).2 := by
  induction rules generalizing i n s with
  | nil => exact .refl
  | cons r rules ih =>
    obtain ⟨hr₁, hr₂⟩ := List.forall_mem_cons.mp hr
    rw [offerAll]
    split
    · exact ih (i + 1) hr₂ n s
    · have ho := offer_tries hr₁ i (max c.limits.retryCap 1) 0 n s
      split
      next s₁ he => rwa [he] at ho
      next m s₁ he =>
        rw [he] at ho
        exact ho.trans (ih (i + 1) hr₂ m s₁)

theorem visit_tries {fuel : Nat} {work : List NodeId} (h : visit c fuel work s = some s') :
    Tries c s s' := by
  induction fuel generalizing work s with
  | zero =>
    cases work with
    | nil => exact Option.some.inj h ▸ .refl
    | cons n work => cases h
  | succ fuel ih =>
    cases work with
    | nil => exact Option.some.inj h ▸ .refl
    | cons n work =>
      have ho := offerAll_tries (c := c) 0 (fun r hr => hr) n s
      rw [visit] at h
      split at h
      · exact ih h
      · split at h
        next s₁ he =>
          rw [he] at ho
          exact ho.trans (ih h)
        next m s₁ he =>
          rw [he] at ho
          exact ho.trans (ih h)

theorem pass_tries {fuel : Nat} (h : pass c fuel s = some s') :
    Tries c { s with applied := 0 } s' := by
  rw [pass] at h
  split at h
  · exact Option.some.inj h ▸ .refl
  · exact visit_tries h

end Passes

/-- The event says that a rule broke off that had changed the tree before. -/
def BrokeLate (rules : List Rule) (res : Resolver) (t : SyntaxTree) (e : Event) : Prop :=
  ∃ r ∈ rules, ∃ n pass es m,
    ((r.act n).runFrom ⟨res, r.id, pass⟩ t es).value = .error m ∧
    t.revision < ((r.act n).runFrom ⟨res, r.id, pass⟩ t es).tree.revision ∧
    e = ⟨pass, some r.id, some n, t.span n, .panicked m⟩

/-- The first change of what is attached was made by a rule that broke off then. -/
def ChangedLate (rules : List Rule) (res : Resolver) (t : SyntaxTree) (es : List Event) : Prop :=
  ∃ u e, t.SameAttached u ∧ BrokeLate rules res u e ∧ e ∈ es

/-- A later state. What is changed and not counted was changed by a rule that broke off then. -/
structure Reported (c : Setting) (s s' : State) : Prop where
  tree : s.tree.Edited s'.tree
  applied_le : s.applied ≤ s'.applied
  events : s.events <+: s'.events
  late : s'.applied = s.applied → s'.tree.revision ≠ s.tree.revision →
    ChangedLate c.rules c.resolver s.tree s'.events

section Reports

variable {c : Setting} {s s' s'' : State}

theorem tried_edited (hs : s.tree.Linked) (c : Setting) (r : Rule) (n : NodeId) :
    s.tree.Edited (tried c r n s).tree :=
  Edit.runFrom_edited hs _ _ _

theorem tried_events (c : Setting) (r : Rule) (n : NodeId) (s : State) :
    s.events <+: (tried c r n s).events :=
  Edit.prefix_runFrom _ _ _ _

theorem Reported.refl (hs : s.tree.Linked) : Reported c s s :=
  ⟨.refl hs, le_refl _, List.prefix_refl _, fun _ h => absurd rfl h⟩

theorem Reported.trans (hs : s.tree.Linked) (h : Reported c s s') (h' : Reported c s' s'') :
    Reported c s s'' where
  tree := h.tree.trans h'.tree
  applied_le := h.applied_le.trans h'.applied_le
  events := h.events.trans h'.events
  late ha hrev := by
    have ha₁ : s'.applied = s.applied := le_antisymm (ha ▸ h'.applied_le) h.applied_le
    by_cases hr : s'.tree.revision = s.tree.revision
    · -- up to `s'` nothing that is attached was touched
      have hsame := (h.tree.grown hr).sameAttached hs h.tree.linked
      obtain ⟨u, e, hu, he, hmem⟩ := h'.late (ha.trans ha₁.symm) (hr ▸ hrev)
      exact ⟨u, e, hsame.trans hu, he, hmem⟩
    · obtain ⟨u, e, hu, he, hmem⟩ := h.late ha₁ hr
      exact ⟨u, e, hu, he, h'.events.subset hmem⟩

theorem Try.reported (h : Try c s s') (hs : s.tree.Linked) : Reported c s s' := by
  cases h with
  | @idle r n hr h =>
    exact ⟨tried_edited hs c r n, le_refl _, tried_events c r n s, fun _ hne => absurd h hne⟩
  | @change r n hr h =>
    exact ⟨tried_edited hs c r n, Nat.le_succ _,
      (tried_events c r n s).trans (List.prefix_append _ _),
      fun ha => absurd ha (Nat.succ_ne_self _)⟩
  | @broken r n m i hr h =>
    refine ⟨tried_edited hs c r n, le_refl _,
      (tried_events c r n s).trans (List.prefix_append _ _), fun _ hne => ?_⟩
    have hlt := lt_of_le_of_ne (tried_edited hs c r n).revision_le hne.symm
    exact ⟨s.tree, brokenEvent c r n s m, .refl _, ⟨r, hr, n, c.pass, s.events, m, h, hlt, rfl⟩,
      List.mem_append_right _ (List.mem_singleton_self _)⟩
  | capped hr =>
    exact ⟨.refl hs, le_refl _, List.prefix_append _ _, fun _ h => absurd rfl h⟩

theorem Tries.reported (h : Tries c s s') (hs : s.tree.Linked) : Reported c s s' := by
  induction h with
  | refl => exact .refl hs
  | tail _ htry ih => exact ih.trans hs (htry.reported ih.tree.linked)

variable {rules : List Rule} {res : Resolver} {limits : Limits} {fuel left : Nat} {o : RunOutcome}
  {r : Result} {t : SyntaxTree}

/-- A change that was reported once stays reported. -/
theorem runFrom_changed (ho : o.changed = true)
    (h : runFrom rules res limits fuel left o s = some r) : r.outcome.changed = true := by
  induction left generalizing o s with
  | zero =>
    rw [runFrom, finish] at h
    obtain ⟨_, -, rfl⟩ := Option.map_eq_some_iff.mp h
    exact ho
  | succ left ih =>
    rw [runFrom] at h
    split at h
    · cases h
    · split at h
      · cases h
        exact ho
      · exact ih rfl h

/-- A session that reports no change ends before its first pass or with it. -/
theorem runFrom_unchanged (hs : s.tree.Linked)
    (h : runFrom rules res limits fuel left o s = some r) (hc : r.outcome.changed = false) :
    s.tree.Edited r.tree ∧
      (r.tree.revision ≠ s.tree.revision → ChangedLate rules res s.tree r.events) := by
  cases left with
  | zero =>
    rw [runFrom, finish] at h
    obtain ⟨_, -, rfl⟩ := Option.map_eq_some_iff.mp h
    exact ⟨.refl hs, fun hne => absurd rfl hne⟩
  | succ left =>
    rw [runFrom] at h
    split at h
    · cases h
    next s₁ hp =>
      have hk := (pass_tries hp).reported hs
      split at h
      next ha =>
        cases h
        exact ⟨hk.tree, hk.late ha⟩
      · rw [runFrom_changed rfl h] at hc
        cases hc

/-- A session that reports no change has left all that is attached as it was, unless a rule changed the
tree and broke off then; the session has an event of that. -/
theorem run_unchanged (ht : t.Linked) (h : run rules res limits fuel t = some r)
    (hc : r.outcome.changed = false) :
    t.SameAttached r.tree ∨ t.revision < r.tree.revision ∧ ChangedLate rules res t r.events := by
  obtain ⟨he, hlate⟩ := runFrom_unchanged ht h hc
  by_cases hr : r.tree.revision = t.revision
  · exact .inl ((he.grown hr).sameAttached ht he.linked)
  · exact .inr ⟨lt_of_le_of_ne he.revision_le (Ne.symm hr), hlate hr⟩

end Reports

section Example

/-- Makes a block wherever an empty statement is, and goes on from there. -/
def withBlock (next : NodeId → NodeId → Edit Bool) : Rule where
  info := .ofId "WithBlock"
  granularity := .statement
  act n := .look fun v =>
    if v.tree.kind n = .emptyStmt then
      (Edit.make ⟨.block, Span.none, none, [], []⟩).andThen fun m => next n m
    else .done false

/-- A tree that is an empty statement and nothing else. -/
def loneEmptyStmt : SyntaxTree :=
  history 1 [.create ⟨.emptyStmt, Span.none, none, [], []⟩, .setRoot 0]

/-- A rule that makes a node and does nothing with it changes nothing. -/
theorem spareBlock_unchanged : ∃ r, loneEmptyStmt.Linked ∧
    run [withBlock fun _ _ => .done true] .unresolved ⟨1, 1⟩ 1 loneEmptyStmt = some r ∧
    r.outcome.changed = false ∧ loneEmptyStmt.SameAttached r.tree := by
  have ht : loneEmptyStmt.Linked := linked_history 1 _
  obtain ⟨r, h, hc, he⟩ : ∃ r, run [withBlock fun _ _ => .done true] .unresolved ⟨1, 1⟩ 1
      loneEmptyStmt = some r ∧ r.outcome.changed = false ∧ r.events = [] := ⟨_, rfl, rfl, rfl⟩
  refine ⟨r, ht, h, hc, ?_⟩
  rcases run_unchanged ht h hc with hsame | ⟨-, _, _, -, -, hmem⟩
  · exact hsame
  · rw [he] at hmem
    cases hmem

/-- A rule that puts a block in the place of an empty statement and breaks off then. -/
theorem brokenLate_changed : ∃ r, run [withBlock fun n m =>
      (Edit.replace n m).andThen fun _ => .broken "after the change"]
      .unresolved ⟨1, 1⟩ 1 loneEmptyStmt = some r ∧
    r.outcome.changed = false ∧ r.tree.rootDoc? ≠ loneEmptyStmt.rootDoc? := by
  refine ⟨_, rfl, rfl, ?_⟩
  intro h
  have hk := congrArg (Option.map Doc.kind) h
  exact absurd hk (by decide)

end Example

end TreeTidy.Session
