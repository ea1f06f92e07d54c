import TreeTidy.Proofs.Engine.Accounts
import TreeTidy.Proofs.Engine.NormalForm
/-!
The reports that a repeating rule was stopped at a place. The limit is looked at right after a change,
before the rule is tried again: so a rule is reported as soon as it has changed a place as often as it may,
and the report is true if and only if a higher limit lets it change the place more often.
-/
namespace TreeTidy

/-- The event says that a rule was stopped at a place. -/
def Event.isCapped (e : Event) : Bool :=
  match e.kind with
  | .retryCapReached _ => true
  | _ => false

namespace Session

open SyntaxTree

/-- The rule changes a place so many times in a row, and the place is there still. -/
inductive Streak (c : Setting) (r : Rule) : Nat → NodeId → State → NodeId → State → Prop
  | nil {n s} : Streak c r 0 n s n s
  | cons {k n p m s s₁ s'} (ha : r.granularity.admits (s.tree.kind n).category = true)
      (hi : invoke c r n s = (.applied, s₁)) (hf : follow s₁.tree n = some p)
      (h : Streak c r k p s₁ m s') : Streak c r (k + 1) n s m s'

/-- The report that a rule is stopped at a node. -/
def cappedEvent (c : Setting) (r : Rule) (m : NodeId) (s : State) : Event :=
  ⟨c.pass, some r.id, some m, s.tree.span m, .retryCapReached (max c.limits.retryCap 1)⟩

/-- What was added to the events is no report of this kind. -/
def Unreported (s s' : State) : Prop :=
  ∃ es, s'.events = s.events ++ es ∧ ∀ e ∈ es, e.isCapped = false

section Streaks

variable {I : SyntaxTree → Prop} {c : Setting} {r : Rule} {k : Nat} {n m : NodeId}
  {s s' s'' : State} {e : Event}

theorem Unreported.refl (s : State) : Unreported s s := ⟨[], by simp, List.forall_mem_nil _⟩

theorem Unreported.trans (h : Unreported s s') (h' : Unreported s' s'') : Unreported s s'' := by
  obtain ⟨es, hes, hnone⟩ := h
  obtain ⟨fs, hfs, hnone'⟩ := h'
  exact ⟨es ++ fs, by rw [hfs, hes, List.append_assoc], List.forall_mem_append.mpr ⟨hnone, hnone'⟩⟩

theorem Unreported.record (h : Unreported s s') (he : e.isCapped = false) : Unreported s (s'.record e) :=
  h.trans ⟨[e], rfl, List.forall_mem_singleton.mpr he⟩

theorem unreported_invoke (c : Setting) (r : Rule) (n : NodeId) (s : State) :
    Unreported s (invoke c r n s).2 := by
  have htried : Unreported s (s.idled (tried c r n s)) := by
    obtain ⟨es, hes, hown⟩ := Edit.exists_rejected ⟨c.resolver, r.id, c.pass⟩ (r.act n) s.tree s.events
    refine ⟨es, hes, fun e he => ?_⟩
    obtain ⟨-, -, word, hk⟩ := hown e he
    rw [Event.isCapped, hk]
  cases hv : (tried c r n s).value with
  | error message =>
    rw [invoke_eq_of_broken hv]
    exact htried.record rfl
  | ok b =>
    by_cases h : (tried c r n s).tree.revision = s.tree.revision
    · rw [invoke_eq_of_idle ⟨b, hv⟩ h]
      exact htried
    · rw [invoke_eq_of_change ⟨b, hv⟩ h]
      exact htried.record (e := appliedEvent c r n s) rfl

theorem changed_of_invoke (h : invoke c r n s = (.applied, s')) :
    s' = s.changed (tried c r n s) (appliedEvent c r n s) := by
  cases hv : (tried c r n s).value with
  | error message =>
    rw [invoke_eq_of_broken hv] at h
    cases h
  | ok b =>
    by_cases hrev : (tried c r n s).tree.revision = s.tree.revision
    · rw [invoke_eq_of_idle ⟨b, hv⟩ hrev] at h
      cases h
    · rw [invoke_eq_of_change ⟨b, hv⟩ hrev] at h
      cases h
      rfl

namespace Streak

theorem applied (h : Streak c r k n s m s') : s'.applied = s.applied + k := by
  induction h with
  | nil => rfl
  | @cons k n p m s s₁ s' ha hi hf h ih =>
    have hone : s₁.applied = s.applied + 1 := by rw [changed_of_invoke hi]; rfl
    rw [ih, hone]
    omega

theorem unreported (h : Streak c r k n s m s') : Unreported s s' := by
  induction h with
  | nil => exact .refl _
  | @cons k n p m s s₁ s' ha hi hf h ih =>
    have hone := unreported_invoke c r n s
    rw [hi] at hone
    exact hone.trans ih

/-- The limits make no difference to what a rule does. -/
theorem withLimits (h : Streak c r k n s m s') (limits : Limits) :
    Streak { c with limits := limits } r k n s m s' := by
  induction h with
  | nil => exact .nil
  | cons ha hi hf _ ih => exact .cons ha hi hf ih

theorem kept (h : Streak c r k n s m s') (hc : Tame I c.rules c.resolver) (hr : r ∈ c.rules)
    (hs : I s.tree) (hn : s.tree.isAttached n = true) : I s'.tree ∧ s'.tree.isAttached m = true := by
  induction h with
  | nil => exact ⟨hs, hn⟩
  | @cons k n p m s s₁ s' ha hi hf _ ih =>
    have hk : I s₁.tree := by
      rw [changed_of_invoke hi]
      exact hc.kept hr hs hn ha _ rfl _
    exact ih hk (Option.filter_eq_some_iff.mp hf).2

/-- As long as the limit is not reached, a repeating rule is offered the place again. -/
theorem offer_eq (h : Streak c r k n s m s') (honce : r.info.repetition ≠ .oncePerPass)
    (i left attempts : Nat) (hlt : attempts + k < c.limits.retryCap) :
    offer c r i (left + k) attempts n s = offer c r i left (attempts + k) m s' := by
  induction h generalizing attempts with
  | nil => rfl
  | @cons k n p m s s₁ s' ha hi hf _ ih =>
    have hmore : ¬ c.limits.retryCap ≤ attempts + 1 := by omega
    rw [← Nat.add_assoc, offer]
    simp only [ha, hi, hf, if_neg honce, if_neg hmore, Bool.not_true, Bool.false_eq_true, if_false]
    rw [ih (attempts + 1) (by omega), Nat.add_assoc, Nat.add_comm 1 k]

end Streak

/-- A place is reported when a repeating rule has changed it as often as it may, and only then. -/
theorem offer_cases (c : Setting) (r : Rule) (i left attempts : Nat) (n : NodeId) (s : State)
    (hsum : left + attempts = max c.limits.retryCap 1) :
    (r.info.repetition ≠ .oncePerPass ∧ ∃ m s', Streak c r left n s m s' ∧
      offer c r i left attempts n s = (some m, s'.record (cappedEvent c r m s'))) ∨
    Unreported s (offer c r i left attempts n s).2 := by
  induction left generalizing attempts n s with
  | zero => exact .inr (.refl s)
  | succ left ih =>
    rw [offer]
    split
    · exact .inr (.refl s)
    next ha =>
      have ha : r.granularity.admits (s.tree.kind n).category = true := by simpa using ha
      have hone := unreported_invoke c r n s
      cases hi : invoke c r n s with
      | mk attempt s₁ =>
        rw [hi] at hone
        cases attempt with
        | noMatch => exact .inr hone
        | failed => exact .inr hone
        | applied =>
          dsimp only
          cases hf : follow s₁.tree n with
          | none => exact .inr hone
          | some p =>
            dsimp only
            split
            · exact .inr hone
            next honce =>
              split
              next hcap =>
                -- this was the last attempt
                obtain rfl : left = 0 := by omega
                have hk : attempts + 1 = max c.limits.retryCap 1 := by omega
                exact .inl ⟨honce, p, s₁, .cons ha hi hf .nil, by rw [cappedEvent, hk]⟩
              next hcap =>
                obtain ⟨-, m, s', hst, ho⟩ | hu := ih (attempts + 1) p s₁ (by omega)
                · exact .inl ⟨honce, m, s', .cons ha hi hf hst, ho⟩
                · exact .inr (hone.trans hu)

end Streaks

/-- A place that is offered to a rule, and the state in which it is. -/
structure Offer where
  setting : Setting
  rule : Rule
  index : Nat
  node : NodeId
  before : State

namespace Offer

def outcome (x : Offer) : Option NodeId × State :=
  offer x.setting x.rule x.index (max x.setting.limits.retryCap 1) 0 x.node x.before

/-- How often the rule changes the place. -/
def changes (x : Offer) : Nat := x.outcome.2.applied - x.before.applied

/-- What is reported of the rule being stopped at the place. -/
def reports (x : Offer) : List Event :=
  (x.outcome.2.events.drop x.before.events.length).filter Event.isCapped

/-- The same offer under another limit. -/
def withCap (x : Offer) (cap : Nat) : Offer :=
  { x with setting := { x.setting with limits := { x.setting.limits with retryCap := cap } } }

/-- How a report comes about, and when it is true. -/
structure Capped (x : Offer) (e : Event) (m : NodeId) (s : State) : Prop where
  repeats : x.rule.info.repetition = .untilNoMatch
  /-- The rule has changed the place as often as it may. -/
  streak : Streak x.setting x.rule (max x.setting.limits.retryCap 1) x.node x.before m s
  changes : x.changes = max x.setting.limits.retryCap 1
  /-- The report names the node that is at the place then. -/
  event : e = cappedEvent x.setting x.rule m s
  outcome : x.outcome = (some m, s.record e)
  attached : s.tree.isAttached m = true
  /-- The rule still matches there if and only if it changes the place more often under a higher limit. -/
  matches_iff : ∀ cap, max x.setting.limits.retryCap 1 < cap →
    (x.rule.Rewrites (x.setting.of x.rule) s.tree m ↔ x.changes < (x.withCap cap).changes)

/-- An offer of a session, made with a node that is attached. -/
structure Made (I : SyntaxTree → Prop) (rules : List Rule) (res : Resolver) (limits : Limits)
    (x : Offer) : Prop where
  setting : ∃ p, x.setting = ⟨rules, res, limits, p⟩
  rule : x.rule ∈ rules
  tree : I x.before.tree
  attached : x.before.tree.isAttached x.node = true

variable {I : SyntaxTree → Prop} {rules : List Rule} {res : Resolver} {limits : Limits} {x : Offer} {e : Event}
  {m : NodeId} {s : State}

theorem reports_eq {es : List Event} (h : x.outcome.2.events = x.before.events ++ es) :
    x.reports = es.filter Event.isCapped := by
  rw [reports, h, List.drop_left]

theorem events_outcome (x : Offer) : x.outcome.2.events.filter Event.isCapped =
    x.before.events.filter Event.isCapped ++ x.reports := by
  obtain ⟨es, hes, -⟩ := offer_share x.setting x.rule x.index (max x.setting.limits.retryCap 1) 0
    x.node x.before
  have he : x.outcome.2.events = x.before.events ++ es := hes.events
  rw [reports_eq he, he, List.filter_append]

theorem reports_of_unreported (h : Unreported x.before x.outcome.2) : x.reports = [] := by
  obtain ⟨es, hes, hnone⟩ := h
  rw [reports_eq hes]
  simpa using hnone

theorem reports_of_streak {k : Nat} (h : Streak x.setting x.rule k x.node x.before m s)
    (ho : x.outcome = (some m, s.record e)) (he : e.isCapped = true) : x.reports = [e] := by
  obtain ⟨es, hes, hnone⟩ := h.unreported
  have hev : x.outcome.2.events = x.before.events ++ (es ++ [e]) := by
    rw [ho, State.record, hes, List.append_assoc]
  have hes : es.filter Event.isCapped = [] := by simpa using hnone
  rw [reports_eq hev, List.filter_append, hes, List.nil_append, List.filter_singleton, he]
  rfl

/-- Under a higher limit the rule goes on where it was stopped. -/
theorem outcome_withCap {k cap : Nat} (h : Streak x.setting x.rule k x.node x.before m s)
    (honce : x.rule.info.repetition ≠ .oncePerPass) (hlt : k < cap) :
    (x.withCap cap).outcome = offer (x.withCap cap).setting x.rule x.index (cap - k - 1 + 1) k m s := by
  have hst := h.withLimits { x.setting.limits with retryCap := cap }
  have hleft : max cap 1 = (cap - k - 1 + 1) + k := by omega
  have ho := hst.offer_eq honce x.index (cap - k - 1 + 1) 0 (show 0 + k < cap by omega)
  rw [Nat.zero_add] at ho
  rw [outcome, show max (x.withCap cap).setting.limits.retryCap 1 = _ from hleft]
  exact ho

theorem Made.kept (hx : x.Made I rules res limits) (hc : Tame I rules res) {k : Nat}
    (h : Streak x.setting x.rule k x.node x.before m s) :
    I s.tree ∧ s.tree.isAttached m = true := by
  obtain ⟨⟨p, hp⟩, hr, hs, hn⟩ := hx
  exact h.kept (by rwa [hp]) (by rwa [hp]) hs hn

theorem Made.matches_iff (hx : x.Made I rules res limits) (hc : Tame I rules res) {k cap : Nat}
    (h : Streak x.setting x.rule k x.node x.before m s)
    (honce : x.rule.info.repetition ≠ .oncePerPass) (hlt : k < cap) :
    x.rule.Rewrites (x.setting.of x.rule) s.tree m ↔ k < (x.withCap cap).changes := by
  obtain ⟨hs, hm⟩ := hx.kept hc h
  obtain ⟨⟨p, hp⟩, hr, -, -⟩ := hx
  have hcap : Tame I (x.withCap cap).setting.rules (x.withCap cap).setting.resolver := by
    rwa [withCap, hp]
  have hrx : x.rule ∈ (x.withCap cap).setting.rules := by rwa [withCap, hp]
  have happ := h.applied
  rw [changes, outcome_withCap h honce hlt, show (x.withCap cap).before = x.before from rfl]
  constructor
  · intro hw
    have hmore := offer_of_rewrites hcap hs hm hrx x.index (cap - k - 1) k hw
    omega
  · intro hmore
    by_contra hw
    have hsame : ((offer (x.withCap cap).setting x.rule x.index (cap - k - 1 + 1) k m s).2).applied =
        s.applied := by
      rw [offer_of_idle hcap hs hm hrx x.index (cap - k - 1) k hw]
      dsimp only
      split <;> rfl
    omega

theorem Made.exists_capped (hx : x.Made I rules res limits) (hc : Tame I rules res) (he : e ∈ x.reports) :
    ∃ m s, x.Capped e m s := by
  have hcases := offer_cases x.setting x.rule x.index _ 0 x.node x.before (Nat.add_zero _)
  obtain ⟨honce, m, s, hst, ho⟩ | hnone := hcases
  · have hout : x.outcome = (some m, s.record (cappedEvent x.setting x.rule m s)) := ho
    rw [reports_of_streak hst hout rfl, List.mem_singleton] at he
    subst he
    have hrep : x.rule.info.repetition = .untilNoMatch := by
      cases hrep : x.rule.info.repetition with
      | oncePerPass => exact absurd hrep honce
      | untilNoMatch => rfl
    have hchanges : x.changes = max x.setting.limits.retryCap 1 := by
      have happ : x.outcome.2.applied = s.applied := by rw [hout]; rfl
      rw [changes, happ, hst.applied, Nat.add_sub_cancel_left]
    refine ⟨m, s, hrep, hst, hchanges, rfl, hout, (hx.kept hc hst).2, fun cap hlt => ?_⟩
    rw [hchanges]
    exact hx.matches_iff hc hst honce hlt
  · rw [reports_of_unreported hnone] at he
    cases he

end Offer

/-- The offers of a place to the rules from one index of the schedule on. -/
def offerAllOffers (c : Setting) : (index : Nat) → List Rule → NodeId → State → List Offer
  | _, [], _, _ => []
  | i, r :: rules, n, s =>
    if s.disabled.contains i then offerAllOffers c (i + 1) rules n s
    else ⟨c, r, i, n, s⟩ :: match offer c r i (max c.limits.retryCap 1) 0 n s with
      | (none, _) => []
      | (some m, s) => offerAllOffers c (i + 1) rules m s

def visitOffers (c : Setting) : (fuel : Nat) → (work : List NodeId) → State → List Offer
  | _, [], _ => []
  | 0, _ :: _, _ => []
  | fuel + 1, n :: work, s =>
    if !s.tree.isAttached n then visitOffers c fuel work s
    else offerAllOffers c 0 c.rules n s ++
      match offerAll c 0 c.rules n s with
      | (none, s) => visitOffers c fuel work s
      | (some m, s) => visitOffers c fuel (s.tree.children m ++ work) s

def passOffers (c : Setting) (fuel : Nat) (s : State) : List Offer :=
  match s.tree.root with
  | none => []
  | some root => visitOffers c fuel [root] { s with applied := 0 }

/-- The offers of all passes whose events are kept: the one on a copy in the end is none of them. -/
def runFromOffers (rules : List Rule) (resolver : Resolver) (limits : Limits) (fuel : Nat) :
    (left : Nat) → RunOutcome → State → List Offer
  | 0, _, _ => []
  | left + 1, o, s =>
    passOffers ⟨rules, resolver, limits, o.passes + 1⟩ fuel s ++
      match pass ⟨rules, resolver, limits, o.passes + 1⟩ fuel s with
      | none => []
      | some s =>
        if s.applied = 0 then []
        else runFromOffers rules resolver limits fuel left
          ⟨true, false, o.passes + 1, o.applied + s.applied⟩ s

def runOffers (rules : List Rule) (resolver : Resolver) (limits : Limits) (fuel : Nat)
    (t : SyntaxTree) : List Offer :=
  runFromOffers rules resolver limits fuel limits.passBound ⟨false, false, 0, 0⟩ ⟨t, [], [], 0⟩

section Sessions

variable {I : SyntaxTree → Prop} {rules : List Rule} {res : Resolver} {limits : Limits} {xs ys : List Offer}
  {es fs gs : List Event} {c : Setting} {n : NodeId} {s s' : State} {fuel left : Nat} {o : RunOutcome}
  {result : Result} {t : SyntaxTree}

/-- The reports that are added to the events are those of the offers. -/
structure Told (I : SyntaxTree → Prop) (rules : List Rule) (res : Resolver) (limits : Limits)
    (xs : List Offer) (es fs : List Event) : Prop where
  reports : fs.filter Event.isCapped = es.filter Event.isCapped ++ xs.flatMap Offer.reports
  made : ∀ x ∈ xs, x.Made I rules res limits

theorem Told.nil (es : List Event) : Told I rules res limits [] es es := ⟨by simp, List.forall_mem_nil _⟩

theorem Told.append (h : Told I rules res limits xs es fs) (h' : Told I rules res limits ys fs gs) :
    Told I rules res limits (xs ++ ys) es gs :=
  ⟨by rw [h'.reports, h.reports, List.flatMap_append, List.append_assoc],
    List.forall_mem_append.mpr ⟨h.made, h'.made⟩⟩

section Passes

variable (hc : Tame I c.rules c.resolver)
include hc

theorem offerAll_told (i : Nat) {rs : List Rule} (hr : ∀ r ∈ rs, r ∈ c.rules) (hs : I s.tree)
    (hn : s.tree.isAttached n = true) :
    Told I c.rules c.resolver c.limits (offerAllOffers c i rs n s) s.events
      (offerAll c i rs n s).2.events := by
  induction rs generalizing i n s with
  | nil => exact .nil _
  | cons r rs ih =>
    obtain ⟨hr₁, hr₂⟩ := List.forall_mem_cons.mp hr
    rw [offerAll, offerAllOffers]
    split
    · exact ih (i + 1) hr₂ hs hn
    · have hturns := offer_turns hc hr₁ i (max c.limits.retryCap 1) 0 hs hn
      have hone : Told I c.rules c.resolver c.limits [⟨c, r, i, n, s⟩] s.events
          (offer c r i (max c.limits.retryCap 1) 0 n s).2.events := by
        refine ⟨?_, List.forall_mem_singleton.mpr ⟨⟨c.pass, rfl⟩, hr₁, hs, hn⟩⟩
        rw [List.flatMap_singleton]
        exact Offer.events_outcome ⟨c, r, i, n, s⟩
      cases he : offer c r i (max c.limits.retryCap 1) 0 n s with
      | mk place s₁ =>
        rw [he] at hturns hone
        cases place with
        | none => exact hone
        | some m => exact hone.append (ih (i + 1) hr₂ (hturns.1.kept hc hs).1 (hturns.2 m rfl))

theorem visit_told {work : List NodeId} (hs : I s.tree) (h : visit c fuel work s = some s') :
    Told I c.rules c.resolver c.limits (visitOffers c fuel work s) s.events s'.events := by
  induction fuel generalizing work s with
  | zero =>
    cases work with
    | nil => exact Option.some.inj h ▸ .nil _
    | cons n work => cases h
  | succ fuel ih =>
    cases work with
    | nil => exact Option.some.inj h ▸ .nil _
    | cons n work =>
      rw [visit] at h
      rw [visitOffers]
      split at h
      next hn =>
        rw [if_pos hn]
        exact ih hs h
      next hn =>
        rw [if_neg hn]
        have hn : s.tree.isAttached n = true := by simpa using hn
        have hturns := offerAll_turns hc 0 (fun r hr => hr) hs hn
        have hone := offerAll_told hc 0 (fun r hr => hr) hs hn
        cases he : offerAll c 0 c.rules n s with
        | mk place s₁ =>
          rw [he] at h hturns hone
          cases place with
          | none => exact hone.append (ih (hturns.1.kept hc hs).1 h)
          | some m => exact hone.append (ih (hturns.1.kept hc hs).1 h)

theorem pass_told (hs : I s.tree) (h : pass c fuel s = some s') :
    Told I c.rules c.resolver c.limits (passOffers c fuel s) s.events s'.events := by
  rw [pass] at h
  rw [passOffers]
  cases hr : s.tree.root with
  | none =>
    rw [hr] at h
    exact Option.some.inj h ▸ .nil _
  | some root =>
    rw [hr] at h
    exact visit_told hc (s := { s with applied := 0 }) hs h

end Passes

theorem runFrom_told (hc : Tame I rules res) (hs : I s.tree)
    (h : runFrom rules res limits fuel left o s = some result) :
    Told I rules res limits (runFromOffers rules res limits fuel left o s) s.events result.events := by
  induction left generalizing o s with
  | zero =>
    rw [runFrom, finish] at h
    obtain ⟨converged, -, rfl⟩ := Option.map_eq_some_iff.mp h
    cases converged with
    | true => exact .nil _
    | false => exact ⟨by simp [runFromOffers, notConverged, Event.isCapped], List.forall_mem_nil _⟩
  | succ left ih =>
    rw [runFrom] at h
    rw [runFromOffers]
    cases hp : pass ⟨rules, res, limits, o.passes + 1⟩ fuel s with
    | none =>
      rw [hp] at h
      cases h
    | some s₁ =>
      have hone := pass_told (c := ⟨rules, res, limits, o.passes + 1⟩) hc hs hp
      have hk := (pass_turns (c := ⟨rules, res, limits, o.passes + 1⟩) hc hs hp).kept hc hs
      rw [hp] at h
      dsimp only at h ⊢
      split at h
      next ha =>
        cases h
        rw [if_pos ha, List.append_nil]
        exact hone
      next ha =>
        rw [if_neg ha]
        exact hone.append (ih hk.1 h)

/-- The reports of a session are those of its offers, in the same order. Each one is made when a repeating
rule has changed a place as often as it may, and it is true unless that was all that there was to change.
The rules are any that never break off; those that the document decides are among them (`tame_of_local`). -/
theorem run_reports (hc : Tame I rules res) (ht : I t)
    (h : run rules res limits fuel t = some result) :
    result.events.filter Event.isCapped = (runOffers rules res limits fuel t).flatMap Offer.reports ∧
    ∀ x ∈ runOffers rules res limits fuel t, x.Made I rules res limits ∧
      ∀ e ∈ x.reports, ∃ m s, x.Capped e m s := by
  have htold := runFrom_told hc (s := ⟨t, [], [], 0⟩) ht h
  refine ⟨htold.reports, fun x hx => ?_⟩
  have hmade := htold.made x hx
  exact ⟨hmade, fun e he => hmade.exists_capped hc he⟩

end Sessions

section Example

/-- Puts a block in the place of an empty statement that is the root, and is offered the block again. -/
def blockAgain : Rule :=
  { blockAtRoot with info := { RuleInfo.ofId "BlockAgain" with repetition := .untilNoMatch } }

theorem blockAgain_local (res : Resolver) : ∀ q ∈ [blockAgain], q.Local res := by
  intro q hq
  rw [List.mem_singleton.mp hq]
  exact ⟨(blockAtRoot_local res).whole, (blockAtRoot_local res).same⟩

/-- A rule that may change a place once is reported when it has done so. -/
theorem blockAgain_reports : ∃ result x e m s, loneEmptyStmt.Linked ∧
    Tame Linked [blockAgain] .unresolved ∧
    run [blockAgain] .unresolved ⟨1, 1⟩ 1 loneEmptyStmt = some result ∧
    result.events.filter Event.isCapped = [e] ∧
    x ∈ runOffers [blockAgain] .unresolved ⟨1, 1⟩ 1 loneEmptyStmt ∧ e ∈ x.reports ∧ x.Capped e m s := by
  have ht : loneEmptyStmt.Linked := linked_history 1 _
  have hc := tame_of_local (blockAgain_local .unresolved)
  obtain ⟨result, e, h, hone⟩ : ∃ result e, run [blockAgain] .unresolved ⟨1, 1⟩ 1 loneEmptyStmt =
      some result ∧ result.events.filter Event.isCapped = [e] := ⟨_, _, rfl, rfl⟩
  obtain ⟨hreports, hoffers⟩ := run_reports hc ht h
  have he : e ∈ (runOffers [blockAgain] .unresolved ⟨1, 1⟩ 1 loneEmptyStmt).flatMap Offer.reports := by
    rw [← hreports, hone]
    exact List.mem_singleton_self e
  obtain ⟨x, hx, hex⟩ := List.mem_flatMap.mp he
  obtain ⟨m, s, hcapped⟩ := (hoffers x hx).2 e hex
  exact ⟨result, x, e, m, s, ht, hc, h, hone, hx, hex, hcapped⟩

/-- The only offer of that session. -/
def blockOffer : Offer :=
  ⟨⟨[blockAgain], .unresolved, ⟨1, 1⟩, 1⟩, blockAgain, 0, 0, ⟨loneEmptyStmt, [], [], 0⟩⟩

/-- The state in which the rule is stopped: the block is the root. -/
def blockMade : State := (invoke blockOffer.setting blockAgain 0 blockOffer.before).2

/-- The report is not true: the rule does nothing to a block. -/
theorem blockAgain_done : ∃ result, loneEmptyStmt.Linked ∧ (∀ q ∈ [blockAgain], q.Local .unresolved) ∧
    run [blockAgain] .unresolved ⟨1, 1⟩ 1 loneEmptyStmt = some result ∧
    blockOffer ∈ runOffers [blockAgain] .unresolved ⟨1, 1⟩ 1 loneEmptyStmt ∧
    blockOffer.outcome =
      (some 1, blockMade.record (cappedEvent blockOffer.setting blockAgain 1 blockMade)) ∧
    cappedEvent blockOffer.setting blockAgain 1 blockMade ∈ result.events ∧
    ¬ blockAgain.Rewrites (blockOffer.setting.of blockAgain) blockMade.tree 1 := by
  obtain ⟨result, hrun, hone⟩ : ∃ result, run [blockAgain] .unresolved ⟨1, 1⟩ 1 loneEmptyStmt =
      some result ∧ result.events.filter Event.isCapped =
        [cappedEvent blockOffer.setting blockAgain 1 blockMade] := ⟨_, rfl, rfl⟩
  refine ⟨result, linked_history 1 _, blockAgain_local _, hrun, .head _, rfl, ?_, ?_⟩
  · have he := hone ▸ List.mem_singleton_self (cappedEvent blockOffer.setting blockAgain 1 blockMade)
    exact (List.mem_filter.mp he).1
  · intro hw
    exact hw.2 rfl

end Example

end Session

end TreeTidy
