import Mathlib.Algebra.BigOperators.Group.List.Lemmas
import Mathlib.Algebra.Ring.Nat
import TreeTidy.Proofs.Engine.Schedule
import TreeTidy.Proofs.Engine.Unchanged
/-!
The accounts of a session. Whatever the rules do, also if they break off, the numbers that a session
reports are those of its events: how often rules were applied, in which passes, and whether it ended by
itself. What a visit of one place adds to the events is counted rule by rule.
-/
namespace TreeTidy

namespace Event

/-- The rule of the event broke off. -/
def isBroken (e : Event) : Bool :=
  match e.kind with
  | .panicked _ => true
  | _ => false

/-- How often rules were applied. -/
def applications (es : List Event) : Nat := es.countP (·.kind == .applied)

/-- How often a rule was applied. -/
def applicationsOf (id : String) (es : List Event) : Nat :=
  es.countP fun e => e.kind == .applied && e.rule == some id

variable {id : String} {es fs : List Event} {e : Event}

@[simp] theorem applications_append :
    applications (es ++ fs) = applications es + applications fs := List.countP_append

@[simp] theorem applicationsOf_append :
    applicationsOf id (es ++ fs) = applicationsOf id es + applicationsOf id fs := List.countP_append

theorem applications_eq_zero : applications es = 0 ↔ ∀ e ∈ es, e.kind ≠ .applied := by
  simp [applications]

theorem applications_pos : 0 < applications es ↔ ∃ e ∈ es, e.kind = .applied := by
  simp [applications]

theorem applicationsOf_le : applicationsOf id es ≤ applications es :=
  List.countP_mono_left fun _ _ h => (Bool.and_eq_true_iff.mp h).1

/-- Events of other rules do not count. -/
theorem applicationsOf_eq_zero (h : ∀ e ∈ es, e.rule ≠ some id) : applicationsOf id es = 0 :=
  List.countP_eq_zero.mpr fun e he hk => h e he (by simpa using (Bool.and_eq_true_iff.mp hk).2)

/-- If every application is that of a rule, the counts of the rules add up to all applications. -/
theorem sum_appliedByRule (h : ∀ e ∈ es, e.kind = .applied → e.rule.isSome = true) :
    ((appliedByRule es).map Prod.snd).sum = applications es := by
  have hlength : (es.filterMap appliedRule?).length = applications es := by
    rw [List.length_filterMap_eq_countP]
    refine List.countP_congr fun e he => ?_
    cases hk : e.kind <;> simp [appliedRule?, hk]
    exact h e he hk
  have hperm : ((es.filterMap appliedRule?).eraseDups.mergeSort fun a b => decide (a ≤ b)).Perm
      (es.filterMap appliedRule?).dedup := by
    refine (List.mergeSort_perm _ _).trans ?_
    rw [List.perm_ext_iff_of_nodup (nodup_eraseDups _) (List.nodup_dedup _)]
    simp only [List.mem_eraseDups, List.mem_dedup, implies_true]
  rw [appliedByRule, List.map_map, (hperm.map _).sum_eq, ← hlength]
  exact List.sum_map_count_dedup_eq_length _

end Event

/-- A program reports the changes that did not apply, and nothing else. -/
theorem Edit.exists_rejected {α : Type} (x : Setting) (p : Edit α) (t : SyntaxTree)
    (es : List Event) : ∃ fs, (p.runFrom x t es).events = es ++ fs ∧
      ∀ e ∈ fs, e.pass = x.pass ∧ e.rule = some x.rule ∧ ∃ word, e.kind = .rejected word := by
  induction p generalizing t es with
  | done a => exact ⟨[], (List.append_nil es).symm, nofun⟩
  | broken m => exact ⟨[], (List.append_nil es).symm, nofun⟩
  | look next ih => exact ih _ t es
  | create spec next ih =>
    simp only [runFrom]
    cases t.create? spec <;> exact ih _ _ es
  | clone n next ih => exact ih _ _ es
  | change c next ih =>
    simp only [runFrom]
    cases c.appliedTo? t with
    | some u => exact ih _ u es
    | none =>
      obtain ⟨fs, hfs, hown⟩ := ih false t
        (es ++ [⟨x.pass, some x.rule, some c.site, t.span c.site, .rejected c.word⟩])
      refine ⟨_ :: fs, by rw [hfs, List.append_assoc, List.singleton_append], ?_⟩
      exact List.forall_mem_cons.mpr ⟨⟨rfl, rfl, c.word, rfl⟩, hown⟩

namespace Session

open Event

/-- How often a rule may change one place while the place is visited. -/
def mostChanges (limits : Limits) (r : Rule) : Nat :=
  match r.info.repetition with
  | .oncePerPass => 1
  | .untilNoMatch => max 1 limits.retryCap

section Offers

variable {c : Setting} {r : Rule} {i : Nat} {n : NodeId} {s s' s'' : State} {es fs : List Event}
  {e : Event}

/-- What offering a place to a rule adds: events of the rule, of which only the last may say that the
rule broke off. -/
structure Share (c : Setting) (r : Rule) (i : Nat) (s s' : State) (es : List Event) : Prop where
  events : s'.events = s.events ++ es
  applied : s'.applied = s.applied + applications es
  own : ∀ e ∈ es, e.pass = c.pass ∧ e.rule = some r.id ∧ ∀ k, e.kind ≠ .nonConverged k
  calm : es.Pairwise fun e _ => e.isBroken = false
  disabled : s.disabled ⊆ s'.disabled
  broken : ∀ e ∈ es, e.isBroken = true → i ∈ s'.disabled

theorem Share.nil (c : Setting) (r : Rule) (i : Nat) (s : State) : Share c r i s s [] :=
  ⟨(List.append_nil _).symm, rfl, nofun, .nil, List.Subset.refl _, nofun⟩

theorem Share.append (h : Share c r i s s' es) (hes : ∀ e ∈ es, e.isBroken = false)
    (h' : Share c r i s' s'' fs) : Share c r i s s'' (es ++ fs) where
  events := by rw [h'.events, h.events, List.append_assoc]
  applied := by rw [h'.applied, h.applied, applications_append, Nat.add_assoc]
  own := List.forall_mem_append.mpr ⟨h.own, h'.own⟩
  calm := List.pairwise_append.mpr ⟨h.calm, h'.calm, fun e he _ _ => hes e he⟩
  disabled := List.Subset.trans h.disabled h'.disabled
  broken := by
    intro e he hb
    rcases List.mem_append.mp he with he | he
    · exact absurd hb (by simp [hes e he])
    · exact h'.broken e he hb

/-- What a try reports before it is known what came of it. -/
theorem exists_tried_events (c : Setting) (r : Rule) (n : NodeId) (s : State) :
    ∃ es, Share c r i s (s.idled (tried c r n s)) es ∧ applications es = 0 ∧
      ∀ e ∈ es, e.isBroken = false := by
  obtain ⟨es, hes, hown⟩ := Edit.exists_rejected ⟨c.resolver, r.id, c.pass⟩ (r.act n) s.tree s.events
  have hbroken : ∀ e ∈ es, e.isBroken = false := by
    intro e he
    obtain ⟨-, -, word, hk⟩ := hown e he
    simp [isBroken, hk]
  have hnone : applications es = 0 := applications_eq_zero.mpr fun e he hk => by
    obtain ⟨-, -, word, hk'⟩ := hown e he
    rw [hk'] at hk
    cases hk
  refine ⟨es, ⟨hes, by rw [hnone]; rfl, ?_, ?_, List.Subset.refl _, ?_⟩, hnone, hbroken⟩
  · intro e he
    obtain ⟨hp, hr, word, hk⟩ := hown e he
    exact ⟨hp, hr, by simp [hk]⟩
  · exact List.pairwise_of_forall_mem_list fun e he _ _ => hbroken e he
  · exact fun e he hb => absurd hb (by simp [hbroken e he])

/-- Recording one event of the rule. -/
theorem Share.record (he : e.pass = c.pass ∧ e.rule = some r.id ∧ ∀ k, e.kind ≠ .nonConverged k)
    (hevents : s'.events = s.events ++ [e]) (happlied : s'.applied = s.applied + applications [e])
    (hdisabled : s.disabled ⊆ s'.disabled) (hbroken : e.isBroken = true → i ∈ s'.disabled) :
    Share c r i s s' [e] :=
  ⟨hevents, happlied, List.forall_mem_singleton.mpr he, List.pairwise_singleton _ _, hdisabled,
    List.forall_mem_singleton.mpr hbroken⟩

/-- What a try that changes the tree reports. -/
theorem exists_changed_events (c : Setting) (r : Rule) (n : NodeId) (s : State) :
    ∃ es, Share c r i s (s.changed (tried c r n s) (appliedEvent c r n s)) es ∧ applications es = 1 ∧
      ∀ e ∈ es, e.isBroken = false := by
  obtain ⟨es, htried, hnone, hcalm⟩ := exists_tried_events (i := i) c r n s
  refine ⟨es ++ [appliedEvent c r n s], htried.append hcalm ?_, ?_, ?_⟩
  · exact .record ⟨rfl, rfl, fun _ h => by cases h⟩ rfl rfl (List.Subset.refl _) fun h => by cases h
  · rw [applications_append, hnone]
    rfl
  · exact List.forall_mem_append.mpr ⟨hcalm, List.forall_mem_singleton.mpr rfl⟩

/-- What a try that breaks off reports. -/
theorem exists_broken_events (c : Setting) (r : Rule) (i : Nat) (n : NodeId) (s : State) (m : String) :
    ∃ es, Share c r i s (s.broken (tried c r n s) (brokenEvent c r n s m) i) es ∧
      applications es = 0 := by
  obtain ⟨es, htried, hnone, hcalm⟩ := exists_tried_events (i := i) c r n s
  refine ⟨es ++ [brokenEvent c r n s m], htried.append hcalm ?_, ?_⟩
  · exact .record ⟨rfl, rfl, nofun⟩ rfl rfl (List.subset_cons_self _ _) fun _ => .head _
  · rw [applications_append, hnone]
    rfl

/-- A rule is offered a place as often as attempts are left, and once if it does not repeat. -/
theorem offer_share (c : Setting) (r : Rule) (i left attempts : Nat) (n : NodeId) (s : State) :
    ∃ es, Share c r i s (offer c r i left attempts n s).2 es ∧ applications es ≤ left ∧
      (r.info.repetition = .oncePerPass → applications es ≤ 1) := by
  induction left generalizing attempts n s with
  | zero => exact ⟨[], .nil c r i s, Nat.le_refl _, fun _ => Nat.zero_le _⟩
  | succ left ih =>
    rw [offer]
    split
    · exact ⟨[], .nil c r i s, Nat.zero_le _, fun _ => Nat.zero_le _⟩
    cases hv : (tried c r n s).value with
    | error m =>
      rw [invoke_eq_of_broken hv]
      obtain ⟨es, hes, hnone⟩ := exists_broken_events c r i n s m
      exact ⟨es, hes, hnone ▸ Nat.zero_le _, fun _ => hnone ▸ Nat.zero_le _⟩
    | ok b =>
      by_cases h : (tried c r n s).tree.revision = s.tree.revision
      · rw [invoke_eq_of_idle ⟨b, hv⟩ h]
        obtain ⟨es, hes, hnone, -⟩ := exists_tried_events (i := i) c r n s
        exact ⟨es, hes, hnone ▸ Nat.zero_le _, fun _ => hnone ▸ Nat.zero_le _⟩
      · rw [invoke_eq_of_change ⟨b, hv⟩ h]
        obtain ⟨es, hes, hone, hcalm⟩ := exists_changed_events (i := i) c r n s
        generalize s.changed (tried c r n s) (appliedEvent c r n s) = s₁ at hes
        dsimp only
        split
        · exact ⟨es, hes, by omega, by omega⟩
        next m _ =>
          split
          · exact ⟨es, hes, by omega, by omega⟩
          next honce =>
            split
            · let capped : Event :=
                ⟨c.pass, some r.id, some m, s₁.tree.span m, .retryCapReached (attempts + 1)⟩
              have hcapped : Share c r i s₁ (s₁.record capped) [capped] :=
                .record ⟨rfl, rfl, fun _ h => by cases h⟩ rfl rfl (List.Subset.refl _) fun h => by cases h
              refine ⟨_, hes.append hcalm hcapped, ?_, fun h => absurd h honce⟩
              rw [applications_append, hone]
              exact Nat.le_add_left 1 left
            · obtain ⟨fs, hfs, hle, -⟩ := ih (attempts + 1) m s₁
              refine ⟨es ++ fs, hes.append hcalm hfs, ?_, fun h => absurd h honce⟩
              rw [applications_append, hone]
              omega

/-- After the event that a rule broke off there is none of that rule, and it is not used any more. -/
structure Quiet (rules : List Rule) (s : State) : Prop where
  last : s.events.Pairwise fun e f => e.isBroken = true → f.rule ≠ e.rule
  disabled : ∀ e ∈ s.events, e.isBroken = true →
    ∃ i ∈ s.disabled, ∃ r, rules[i]? = some r ∧ e.rule = some r.id

theorem eq_of_id_eq {rules : List Rule} (hids : (rules.map Rule.id).Nodup) {i j : Nat} {q r : Rule}
    (hq : rules[i]? = some q) (hr : rules[j]? = some r) (h : q.id = r.id) : i = j := by
  obtain ⟨hi, -⟩ := List.getElem?_eq_some_iff.mp hq
  refine (List.getElem?_inj (by simpa using hi) hids).mp ?_
  rw [List.getElem?_map, List.getElem?_map, hq, hr, Option.map_some, Option.map_some, h]

theorem Share.quiet (hids : (c.rules.map Rule.id).Nodup) (hr : c.rules[i]? = some r)
    (hi : i ∉ s.disabled) (h : Share c r i s s' es) (hq : Quiet c.rules s) : Quiet c.rules s' where
  last := by
    rw [h.events]
    refine List.pairwise_append.mpr ⟨hq.last, h.calm.imp fun he hb => by simp [he] at hb, ?_⟩
    intro e he f hf hb hrule
    obtain ⟨j, hj, q, hqj, hqe⟩ := hq.disabled e he hb
    have hid : q.id = r.id := Option.some.inj (hqe.symm.trans (hrule.symm.trans (h.own f hf).2.1))
    exact hi (eq_of_id_eq hids hqj hr hid ▸ hj)
  disabled := by
    rw [h.events]
    intro e he hb
    rcases List.mem_append.mp he with he | he
    · obtain ⟨j, hj, hq⟩ := hq.disabled e he hb
      exact ⟨j, h.disabled hj, hq⟩
    · exact ⟨i, h.broken e he hb, r, hr, (h.own e he).2.1⟩

/-- What a part of a pass adds. -/
structure Added (c : Setting) (s s' : State) (es : List Event) : Prop where
  events : s'.events = s.events ++ es
  applied : s'.applied = s.applied + applications es
  own : ∀ e ∈ es, e.pass = c.pass ∧ e.rule.isSome = true ∧ ∀ k, e.kind ≠ .nonConverged k
  quiet : Quiet c.rules s → Quiet c.rules s'

theorem Added.nil (c : Setting) (s : State) : Added c s s [] :=
  ⟨(List.append_nil _).symm, rfl, nofun, fun h => h⟩

theorem Added.append (h : Added c s s' es) (h' : Added c s' s'' fs) : Added c s s'' (es ++ fs) where
  events := by rw [h'.events, h.events, List.append_assoc]
  applied := by rw [h'.applied, h.applied, applications_append, Nat.add_assoc]
  own := List.forall_mem_append.mpr ⟨h.own, h'.own⟩
  quiet hq := h'.quiet (h.quiet hq)

theorem Share.added (hids : (c.rules.map Rule.id).Nodup) (hr : c.rules[i]? = some r)
    (hi : i ∉ s.disabled) (h : Share c r i s s' es) : Added c s s' es :=
  ⟨h.events, h.applied, fun e he => ⟨(h.own e he).1, by simp [(h.own e he).2.1], (h.own e he).2.2⟩,
    h.quiet hids hr hi⟩

/-- What offering a place to some of the rules adds: no rule is applied too often. -/
structure Dealt (c : Setting) (rules : List Rule) (s s' : State) (es : List Event) : Prop where
  added : Added c s s' es
  own : ∀ e ∈ es, ∃ q ∈ rules, e.rule = some q.id
  most : ∀ q ∈ rules, applicationsOf q.id es ≤ mostChanges c.limits q

variable {rules : List Rule}

theorem Dealt.nil (c : Setting) (rules : List Rule) (s : State) : Dealt c rules s s [] :=
  ⟨.nil c s, nofun, fun _ _ => Nat.zero_le _⟩

/-- Events of later rules are not of the first. -/
theorem Dealt.applicationsOf_first (h : Dealt c rules s s' es)
    (hids : ((r :: rules).map Rule.id).Nodup) : applicationsOf r.id es = 0 := by
  refine applicationsOf_eq_zero fun e he hre => ?_
  obtain ⟨q, hq, hqe⟩ := h.own e he
  exact (List.nodup_cons.mp hids).1
    (List.mem_map.mpr ⟨q, hq, Option.some.inj (hqe.symm.trans hre)⟩)

theorem Dealt.skip (h : Dealt c rules s s' es) (hids : ((r :: rules).map Rule.id).Nodup) :
    Dealt c (r :: rules) s s' es where
  added := h.added
  own e he := (h.own e he).imp fun _ hq => ⟨.tail _ hq.1, hq.2⟩
  most := List.forall_mem_cons.mpr ⟨h.applicationsOf_first hids ▸ Nat.zero_le _, h.most⟩

theorem Dealt.cons (hids : ((r :: rules).map Rule.id).Nodup) (hadded : Added c s s' es)
    (hown : ∀ e ∈ es, e.rule = some r.id) (hmost : applications es ≤ mostChanges c.limits r)
    (h : Dealt c rules s' s'' fs) : Dealt c (r :: rules) s s'' (es ++ fs) where
  added := hadded.append h.added
  own := List.forall_mem_append.mpr
    ⟨fun e he => ⟨r, .head _, hown e he⟩, (h.skip hids).own⟩
  most := by
    refine List.forall_mem_cons.mpr ⟨?_, fun q hq => ?_⟩
    · rw [applicationsOf_append, h.applicationsOf_first hids]
      exact applicationsOf_le.trans hmost
    · have hne : ∀ e ∈ es, e.rule ≠ some q.id := fun e he hqe =>
        (List.nodup_cons.mp hids).1
          (List.mem_map.mpr ⟨q, hq, Option.some.inj (hqe.symm.trans (hown e he))⟩)
      rw [applicationsOf_append, applicationsOf_eq_zero hne, Nat.zero_add]
      exact h.most q hq

/-- A place is offered to the rules that are left, each of them at its index in the schedule. -/
theorem offerAll_dealt (hids : (c.rules.map Rule.id).Nodup) (front : List Rule)
    (hc : c.rules = front ++ rules) (n : NodeId) (s : State) :
    ∃ es, Dealt c rules s (offerAll c front.length rules n s).2 es := by
  induction rules generalizing front n s with
  | nil => exact ⟨[], .nil c [] s⟩
  | cons r rules ih =>
    have hrest : ((r :: rules).map Rule.id).Nodup := by
      rw [hc, List.map_append] at hids
      exact (List.nodup_append.mp hids).2.1
    have hr : c.rules[front.length]? = some r := by rw [hc]; simp
    replace ih := ih (front ++ [r]) (by rw [hc, List.append_assoc, List.singleton_append])
    rw [List.length_append, List.length_singleton] at ih
    rw [offerAll]
    split
    · obtain ⟨es, hes⟩ := ih n s
      exact ⟨es, hes.skip hrest⟩
    next hi =>
      obtain ⟨es, hes, hle, honce⟩ :=
        offer_share c r front.length (max c.limits.retryCap 1) 0 n s
      have hadded := hes.added hids hr (by simpa using hi)
      have hmost : applications es ≤ mostChanges c.limits r := by
        rw [mostChanges]
        split
        next h => exact honce h
        · omega
      have hown := fun e he => (hes.own e he).2.1
      split
      next s₁ he =>
        rw [he] at hadded
        exact ⟨es ++ [], .cons hrest hadded hown hmost (.nil c rules s₁)⟩
      next m s₁ he =>
        rw [he] at hadded
        obtain ⟨fs, hfs⟩ := ih m s₁
        exact ⟨es ++ fs, .cons hrest hadded hown hmost hfs⟩

theorem visit_added (hids : (c.rules.map Rule.id).Nodup) {fuel : Nat} {work : List NodeId}
    (h : visit c fuel work s = some s') : ∃ es, Added c s s' es := by
  induction fuel generalizing work s with
  | zero =>
    cases work with
    | nil => exact Option.some.inj h ▸ ⟨[], .nil c s⟩
    | cons n work => cases h
  | succ fuel ih =>
    cases work with
    | nil => exact Option.some.inj h ▸ ⟨[], .nil c s⟩
    | cons n work =>
      rw [visit] at h
      split at h
      · exact ih h
      obtain ⟨es, hes⟩ := offerAll_dealt hids [] rfl n s
      rw [List.length_nil] at hes
      split at h
      all_goals
        next he =>
          rw [he] at hes
          obtain ⟨fs, hfs⟩ := ih h
          exact ⟨es ++ fs, hes.added.append hfs⟩

/-- A pass counts the changes that it adds to the events. -/
theorem pass_added (hids : (c.rules.map Rule.id).Nodup) {fuel : Nat} (h : pass c fuel s = some s') :
    ∃ es, Added c { s with applied := 0 } s' es := by
  rw [pass] at h
  split at h
  · exact Option.some.inj h ▸ ⟨[], .nil c _⟩
  · exact visit_added hids h

end Offers

section Runs

variable {rules : List Rule} {res : Resolver} {limits : Limits} {fuel left : Nat} {o : RunOutcome}
  {s s' : State} {es fs : List Event} {r : Result}

/-- The events of rules bear out the numbers of a session. -/
structure Ledger (o : RunOutcome) (es : List Event) : Prop where
  own : ∀ e ∈ es, e.rule.isSome = true ∧ (∀ k, e.kind ≠ .nonConverged k) ∧ 1 ≤ e.pass ∧
    e.pass ≤ o.passes + 1
  increasing : es.Pairwise (·.pass ≤ ·.pass)
  changing : ∀ p, (∃ e ∈ es, e.kind = .applied ∧ e.pass = p) ↔ 1 ≤ p ∧ p ≤ o.passes
  applied : o.applied = applications es
  changed : o.changed = true ↔ 0 < o.passes

/-- Whether a session converged is not in the ledger. -/
theorem Ledger.withConverged (h : Ledger o es) (b : Bool) : Ledger { o with converged := b } es :=
  ⟨h.own, h.increasing, h.changing, h.applied, h.changed⟩

theorem Ledger.applied_pos (h : Ledger o es) : 0 < o.passes ↔ 0 < o.applied := by
  rw [h.applied, applications_pos]
  constructor
  · intro hpos
    obtain ⟨e, he, hk, -⟩ := (h.changing 1).mpr ⟨Nat.le_refl 1, hpos⟩
    exact ⟨e, he, hk⟩
  · rintro ⟨e, he, hk⟩
    obtain ⟨hlow, hhigh⟩ := (h.changing e.pass).mp ⟨e, he, hk, rfl⟩
    exact Nat.lt_of_lt_of_le hlow hhigh

/-- The books between two passes: there is no event of a later pass yet. -/
structure Books (rules : List Rule) (o : RunOutcome) (s : State) : Prop where
  ledger : Ledger o s.events
  closed : ∀ e ∈ s.events, e.pass ≤ o.passes
  quiet : Quiet rules s

theorem books_start (rules : List Rule) (t : SyntaxTree) :
    Books rules ⟨false, false, 0, 0⟩ ⟨t, [], [], 0⟩ where
  ledger := ⟨nofun, .nil, fun p => ⟨nofun, fun h => absurd (h.1.trans h.2) (by decide)⟩, rfl,
    by decide⟩
  closed := nofun
  quiet := ⟨.nil, nofun⟩

/-- The events of the next pass come after all others. -/
theorem Books.increasing_append (hb : Books rules o s)
    (hes : ∀ e ∈ es, e.pass = o.passes + 1) : (s.events ++ es).Pairwise (·.pass ≤ ·.pass) := by
  refine List.pairwise_append.mpr ⟨hb.ledger.increasing, ?_, ?_⟩
  · exact List.pairwise_of_forall_mem_list fun e he f hf => by rw [hes e he, hes f hf]
  · intro e he f hf
    rw [hes f hf]
    exact Nat.le_succ_of_le (hb.closed e he)

/-- A pass without changes is not counted. -/
theorem Books.idle {c : Setting} (hb : Books rules o s) (hp : c.pass = o.passes + 1)
    (ha : Added c { s with applied := 0 } s' es) (h0 : s'.applied = 0) : Ledger o s'.events := by
  have hnone : applications es = 0 := by simpa [h0] using ha.applied.symm
  rw [ha.events]
  refine ⟨List.forall_mem_append.mpr ⟨hb.ledger.own, ?_⟩, ?_, ?_, ?_, hb.ledger.changed⟩
  · intro e he
    obtain ⟨hpass, hrule, hkind⟩ := ha.own e he
    exact ⟨hrule, hkind, by omega, by omega⟩
  · exact hb.increasing_append fun e he => (ha.own e he).1.trans hp
  · intro p
    rw [← hb.ledger.changing p]
    refine ⟨fun ⟨e, he, hk⟩ => ⟨e, ?_, hk⟩, fun ⟨e, he, hk⟩ => ⟨e, List.mem_append_left _ he, hk⟩⟩
    exact (List.mem_append.mp he).resolve_right fun he => applications_eq_zero.mp hnone e he hk.1
  · rw [applications_append, hnone]
    exact hb.ledger.applied

/-- A pass with changes is counted, and so are its changes. -/
theorem Books.next {c : Setting} (hb : Books rules o s) (hc : c.rules = rules)
    (hp : c.pass = o.passes + 1) (ha : Added c { s with applied := 0 } s' es)
    (h0 : s'.applied ≠ 0) :
    Books rules ⟨true, false, o.passes + 1, o.applied + s'.applied⟩ s' := by
  have happlied : s'.applied = applications es := by simpa using ha.applied
  have hpass : ∀ e ∈ es, e.pass = o.passes + 1 := fun e he => (ha.own e he).1.trans hp
  have hquiet : Quiet rules s' := hc ▸ ha.quiet (hc ▸ ⟨hb.quiet.last, hb.quiet.disabled⟩)
  refine ⟨?_, ?_, hquiet⟩
  · rw [ha.events]
    refine ⟨List.forall_mem_append.mpr ⟨?_, ?_⟩, hb.increasing_append hpass, ?_, ?_,
      ⟨fun _ => Nat.succ_pos _, fun _ => rfl⟩⟩
    · intro e he
      obtain ⟨hrule, hkind, hlow, hhigh⟩ := hb.ledger.own e he
      exact ⟨hrule, hkind, hlow, Nat.le_succ_of_le hhigh⟩
    · intro e he
      obtain ⟨-, hrule, hkind⟩ := ha.own e he
      exact ⟨hrule, hkind, hpass e he ▸ Nat.succ_pos _, Nat.le_succ_of_le (hpass e he).le⟩
    · intro p
      constructor
      · rintro ⟨e, he, hk, rfl⟩
        rcases List.mem_append.mp he with he | he
        · exact ((hb.ledger.changing _).mp ⟨e, he, hk, rfl⟩).imp_right Nat.le_succ_of_le
        · exact ⟨by rw [hpass e he]; omega, Nat.le_of_eq (hpass e he)⟩
      · rintro ⟨hlow, hhigh⟩
        rcases Nat.le_succ_iff.mp hhigh with hle | rfl
        · obtain ⟨e, he, hk⟩ := (hb.ledger.changing p).mpr ⟨hlow, hle⟩
          exact ⟨e, List.mem_append_left _ he, hk⟩
        · obtain ⟨e, he, hk⟩ := applications_pos.mp (by omega : 0 < applications es)
          exact ⟨e, List.mem_append_right _ he, hk, hpass e he⟩
    · rw [applications_append, happlied, hb.ledger.applied]
  · rw [ha.events]
    exact List.forall_mem_append.mpr ⟨fun e he => Nat.le_succ_of_le (hb.closed e he),
      fun e he => Nat.le_of_eq (hpass e he)⟩

/-- What a session reports adds up. -/
structure Accounts (limits : Limits) (r : Result) : Prop where
  applied : r.outcome.applied = applications r.events
  byRule : ((appliedByRule r.events).map Prod.snd).sum = r.outcome.applied
  passes_le : r.outcome.passes ≤ limits.passBound
  changed : r.outcome.changed = true ↔ 0 < r.outcome.passes
  applied_pos : 0 < r.outcome.passes ↔ 0 < r.outcome.applied
  changing : ∀ p, (∃ e ∈ r.events, e.kind = .applied ∧ e.pass = p) ↔
    1 ≤ p ∧ p ≤ r.outcome.passes
  increasing : (r.events.filter (·.rule.isSome)).Pairwise (·.pass ≤ ·.pass)
  within : ∀ e ∈ r.events, e.rule.isSome = true → 1 ≤ e.pass ∧ e.pass ≤ r.outcome.passes + 1
  ofSession : ∀ e ∈ r.events, e.rule = none → ∃ k, e.kind = .nonConverged k
  converged : r.outcome.converged = true → ∀ e ∈ r.events, ∀ k, e.kind ≠ .nonConverged k
  notConverged : r.outcome.converged = false → ∃ es e, r.events = es ++ [e] ∧
    e.kind = .nonConverged r.outcome.passes ∧ ∀ f ∈ es, ∀ k, f.kind ≠ .nonConverged k
  brokenOnce : ∀ id, (r.events.countP fun e => e.isBroken && e.rule == some id) ≤ 1
  brokenLast : r.events.Pairwise fun e f => e.isBroken = true → f.rule ≠ e.rule

/-- An event that rules out a later one of its kind is there once. -/
theorem countP_le_one {p : Event → Bool} (h : es.Pairwise fun e f => p e = true → p f = false) :
    es.countP p ≤ 1 := by
  induction es with
  | nil => exact Nat.zero_le _
  | cons e es ih =>
    obtain ⟨hfirst, hrest⟩ := List.pairwise_cons.mp h
    cases he : p e with
    | false =>
      rw [List.countP_cons_of_neg (by simp [he])]
      exact ih hrest
    | true =>
      rw [List.countP_cons_of_pos he, List.countP_eq_zero.mpr]
      exact fun f hf => by simp [hfirst f hf he]

/-- The events that only say that a session was cut off. -/
def CutOff (o : RunOutcome) (es : List Event) : Prop :=
  ∀ e ∈ es, ∃ t : SyntaxTree, e = notConverged t o.passes

section CutOff

variable (hfs : CutOff o fs)
include hfs

/-- They are of no rule, and so none of what is counted. -/
theorem CutOff.mem_of_mem_append {e : Event} (he : e ∈ es ++ fs)
    (hk : e.rule.isSome = true ∨ e.kind = .applied) : e ∈ es := by
  refine (List.mem_append.mp he).resolve_right fun he => ?_
  obtain ⟨t, rfl⟩ := hfs e he
  simp [notConverged] at hk

theorem CutOff.applications_append : applications (es ++ fs) = applications es := by
  have hnone : applications fs = 0 := applications_eq_zero.mpr fun e he hk => by
    obtain ⟨t, rfl⟩ := hfs e he
    cases hk
  rw [Event.applications_append, hnone, Nat.add_zero]

theorem CutOff.filter_append :
    (es ++ fs).filter (·.rule.isSome) = es.filter (·.rule.isSome) := by
  have hnone : fs.filter (·.rule.isSome) = [] := List.filter_eq_nil_iff.mpr fun e he => by
    obtain ⟨t, rfl⟩ := hfs e he
    exact Bool.false_ne_true
  rw [List.filter_append, hnone, List.append_nil]

theorem Ledger.changing_append (h : Ledger o es) (p : Nat) :
    (∃ e ∈ es ++ fs, e.kind = .applied ∧ e.pass = p) ↔ 1 ≤ p ∧ p ≤ o.passes := by
  rw [← h.changing p]
  exact ⟨fun ⟨e, he, hk⟩ => ⟨e, hfs.mem_of_mem_append he (.inr hk.1), hk⟩,
    fun ⟨e, he, hk⟩ => ⟨e, List.mem_append_left _ he, hk⟩⟩

theorem Ledger.broken_append (h : Ledger o es)
    (hlast : es.Pairwise fun e f => e.isBroken = true → f.rule ≠ e.rule) :
    (es ++ fs).Pairwise fun e f => e.isBroken = true → f.rule ≠ e.rule := by
  refine List.pairwise_append.mpr ⟨hlast, ?_, ?_⟩
  · refine List.pairwise_of_forall_mem_list fun e he _ _ hb => ?_
    obtain ⟨t, rfl⟩ := hfs e he
    cases hb
  · intro e he f hf _ hrule
    obtain ⟨t, rfl⟩ := hfs f hf
    have hsome := (h.own e he).1
    rw [← hrule] at hsome
    cases hsome

end CutOff

/-- A session with a sound ledger adds no event but the last one, if it does not converge. -/
theorem Ledger.accounts (h : Ledger r.outcome es)
    (hlast : es.Pairwise fun e f => e.isBroken = true → f.rule ≠ e.rule)
    (hle : r.outcome.passes ≤ limits.passBound)
    (hend : r.outcome.converged = true ∧ r.events = es ∨ r.outcome.converged = false ∧
      ∃ t : SyntaxTree, r.events = es ++ [notConverged t r.outcome.passes]) : Accounts limits r := by
  obtain ⟨fs, hevents, hfs⟩ : ∃ fs, r.events = es ++ fs ∧ CutOff r.outcome fs := by
    rcases hend with ⟨-, he⟩ | ⟨-, t, he⟩
    · exact ⟨[], he.trans (List.append_nil es).symm, nofun⟩
    · exact ⟨_, he, List.forall_mem_singleton.mpr ⟨t, rfl⟩⟩
  have happ : r.outcome.applied = applications r.events := by
    rw [hevents, hfs.applications_append]
    exact h.applied
  have hmem : ∀ {e}, e ∈ r.events → e.rule.isSome = true ∨ e.kind = .applied → e ∈ es :=
    fun he hk => hfs.mem_of_mem_append (hevents ▸ he) hk
  have hbroken : r.events.Pairwise fun e f => e.isBroken = true → f.rule ≠ e.rule :=
    hevents ▸ h.broken_append hfs hlast
  refine {
    applied := happ
    byRule := (sum_appliedByRule fun e he hk => (h.own e (hmem he (.inr hk))).1).trans happ.symm
    passes_le := hle
    changed := h.changed
    applied_pos := h.applied_pos
    changing := hevents ▸ h.changing_append hfs
    increasing := by rw [hevents, hfs.filter_append]; exact h.increasing.filter _
    within := fun e he hr => (h.own e (hmem he (.inl hr))).2.2
    ofSession := ?_
    converged := ?_
    notConverged := ?_
    brokenOnce := ?_
    brokenLast := hbroken }
  · intro e he hr
    rcases List.mem_append.mp (hevents ▸ he) with he | he
    · exact absurd (h.own e he).1 (by simp [hr])
    · obtain ⟨t, rfl⟩ := hfs e he
      exact ⟨_, rfl⟩
  · intro hc
    rcases hend with ⟨-, he⟩ | ⟨hc', -⟩
    · exact he ▸ fun e he => (h.own e he).2.1
    · exact absurd (hc.symm.trans hc') (by decide)
  · intro hc
    rcases hend with ⟨hc', -⟩ | ⟨-, t, he⟩
    · exact absurd (hc.symm.trans hc') (by decide)
    · exact ⟨es, _, he, rfl, fun e he => (h.own e he).2.1⟩
  · intro id
    refine countP_le_one (hbroken.imp fun {e f} h hp => ?_)
    obtain ⟨hb, hr⟩ := Bool.and_eq_true_iff.mp hp
    have hne := h hb
    rw [eq_of_beq hr] at hne
    simp [hne]

/-- From sound books on, passes keep the accounts. -/
theorem runFrom_accounts (hids : (rules.map Rule.id).Nodup) (hb : Books rules o s)
    (hleft : o.passes + left ≤ limits.passBound)
    (h : runFrom rules res limits fuel left o s = some r) : Accounts limits r := by
  induction left generalizing o s with
  | zero =>
    rw [runFrom, finish] at h
    obtain ⟨b, -, rfl⟩ := Option.map_eq_some_iff.mp h
    refine (hb.ledger.withConverged b).accounts hb.quiet.last hleft ?_
    cases b with
    | true => exact .inl ⟨rfl, rfl⟩
    | false => exact .inr ⟨rfl, s.tree, rfl⟩
  | succ left ih =>
    rw [runFrom] at h
    split at h
    · cases h
    next s₁ hp =>
      obtain ⟨es, hes⟩ := pass_added hids hp
      split at h
      next h0 =>
        cases h
        have hquiet := hes.quiet ⟨hb.quiet.last, hb.quiet.disabled⟩
        exact ((hb.idle rfl hes h0).withConverged true).accounts hquiet.last
          (Nat.le_of_add_right_le hleft) (.inl ⟨rfl, rfl⟩)
      next h0 => exact ih (hb.next rfl rfl hes h0) (by simp only; omega) h

end Runs

variable {specs : List Rule} {bundles : List BundleSpec} {c : Catalog} {active : List String}
  {schedule : Schedule}

/-- Whatever the rules of a schedule do, what a session with them reports adds up. While it visits a
place, a rule that does not repeat is applied there once at most, and another as often as the limits
allow. -/
theorem run_accounts (hbuilt : Catalog.build specs bundles = .ok c)
    (hschedule : Schedule.order c active = .ok schedule) (res : Resolver) (limits : Limits) :
    (∀ fuel t r, run schedule.rules res limits fuel t = some r → Accounts limits r) ∧
    ∀ pass n s, ∃ es,
      (offerAll ⟨schedule.rules, res, limits, pass⟩ 0 schedule.rules n s).2.events = s.events ++ es ∧
      ∀ q ∈ schedule.rules, applicationsOf q.id es ≤ mostChanges limits q := by
  have hids : (schedule.rules.map Rule.id).Nodup := Schedule.nodup_of_order hbuilt hschedule
  constructor
  · intro fuel t r h
    exact runFrom_accounts hids (books_start schedule.rules t) (by simp) h
  · intro pass n s
    obtain ⟨es, hes⟩ := offerAll_dealt (c := ⟨schedule.rules, res, limits, pass⟩) hids [] rfl n s
    exact ⟨es, hes.added.events, hes.most⟩

section Example

variable (f g : NodeId → Edit Bool)

def again : Rule := ⟨{ RuleInfo.ofId "Again" with repetition := .untilNoMatch }, .statement, f⟩

def once : Rule := ⟨.ofId "Once", .node, g⟩

theorem build_again_once : Catalog.build [once g, again f] [] = .ok ⟨[again f, once g], []⟩ := by
  cbv

theorem order_again_once : Schedule.order ⟨[again f, once g], []⟩ ["Again", "Once"] =
    .ok ⟨[again f, once g], []⟩ := by
  cbv

/-- Copies what is there. -/
def restless (n : NodeId) : Edit Bool := (Edit.copy n).andThen fun m => Edit.replace n m

/-- Wants to remove the root and gives up. -/
def weary (n : NodeId) : Edit Bool := (Edit.remove n).andThen fun _ => .broken "cannot go on"

/-- A rule that always matches is stopped by the limits; a rule that breaks off is not used again. -/
theorem restless_weary_accounts : ∃ r,
    Catalog.build [once weary, again restless] [] = .ok ⟨[again restless, once weary], []⟩ ∧
    Schedule.order ⟨[again restless, once weary], []⟩ ["Again", "Once"] =
      .ok ⟨[again restless, once weary], []⟩ ∧
    run [again restless, once weary] .unresolved ⟨2, 3⟩ 1 loneEmptyStmt = some r ∧
    r.outcome = ⟨true, false, 2, 6⟩ ∧ Accounts ⟨2, 3⟩ r ∧
    ∃ es, (offerAll ⟨[again restless, once weary], .unresolved, ⟨2, 3⟩, 1⟩ 0
        [again restless, once weary] 0 ⟨loneEmptyStmt, [], [], 0⟩).2.events = es ∧
      applicationsOf "Again" es ≤ 3 ∧ applicationsOf "Once" es ≤ 1 := by
  have hbuilt := build_again_once restless weary
  have hschedule := order_again_once restless weary
  obtain ⟨r, hr, ho⟩ : ∃ r, run [again restless, once weary] .unresolved ⟨2, 3⟩ 1 loneEmptyStmt =
      some r ∧ r.outcome = ⟨true, false, 2, 6⟩ := ⟨_, rfl, rfl⟩
  obtain ⟨haccounts, hvisits⟩ := run_accounts hbuilt hschedule .unresolved ⟨2, 3⟩
  obtain ⟨es, hes, hmost⟩ := hvisits 1 0 ⟨loneEmptyStmt, [], [], 0⟩
  exact ⟨r, hbuilt, hschedule, hr, ho, haccounts 1 loneEmptyStmt r hr, es, hes,
    hmost (again restless) (.head _), hmost (once weary) (.tail _ (.head _))⟩

end Example

end Session

end TreeTidy
