import TreeTidy.Proofs.Engine.Unchanged
import TreeTidy.Proofs.Tree.Lives
/-!
The calls of rules in a session, one after the other. A rule is called with a node of a category
that it admits, and the node is attached at that moment: with one exception. A rule that breaks off
after it has destroyed the node that it was called with leaves the place as it is, and the rules
after it are called with the dead node.
-/
namespace TreeTidy.Session

open SyntaxTree

/-- A call of a rule, and the state in which it is made. -/
structure Call where
  setting : Setting
  rule : Rule
  node : NodeId
  before : State

namespace Call

def outcome (x : Call) : Edit.Outcome Bool := tried x.setting x.rule x.node x.before

/-- The rule broke off after it had destroyed the node. -/
structure Fatal (x : Call) : Prop where
  live : x.before.tree.isAttached x.node = true
  broke : ∃ m, x.outcome.value = .error m
  dead : x.outcome.tree.isAlive x.node = false

end Call

/-- The calls that are made when a place is offered to one rule. -/
def offerCalls (c : Setting) (r : Rule) : (left attempts : Nat) → NodeId → State → List Call
  | 0, _, _, _ => []
  | left + 1, attempts, n, s =>
    if !r.granularity.admits (s.tree.kind n).category then []
    else ⟨c, r, n, s⟩ :: match invoke c r n s with
      | (.applied, s) =>
        match follow s.tree n with
        | none => []
        | some m =>
          if r.info.repetition = .oncePerPass then []
          else if c.limits.retryCap ≤ attempts + 1 then []
          else offerCalls c r left (attempts + 1) m s
      | _ => []

def offerAllCalls (c : Setting) : (index : Nat) → List Rule → NodeId → State → List Call
  | _, [], _, _ => []
  | i, r :: rules, n, s =>
    if s.disabled.contains i then offerAllCalls c (i + 1) rules n s
    else offerCalls c r (max c.limits.retryCap 1) 0 n s ++
      match offer c r i (max c.limits.retryCap 1) 0 n s with
      | (none, _) => []
      | (some m, s) => offerAllCalls c (i + 1) rules m s

/-- The calls of a visit, also of one that the fuel does not suffice for. -/
def visitCalls (c : Setting) : (fuel : Nat) → (work : List NodeId) → State → List Call
  | _, [], _ => []
  | 0, _ :: _, _ => []
  | fuel + 1, n :: work, s =>
    if !s.tree.isAttached n then visitCalls c fuel work s
    else offerAllCalls c 0 c.rules n s ++
      match offerAll c 0 c.rules n s with
      | (none, s) => visitCalls c fuel work s
      | (some m, s) => visitCalls c fuel (s.tree.children m ++ work) s

def passCalls (c : Setting) (fuel : Nat) (s : State) : List Call :=
  match s.tree.root with
  | none => []
  | some root => visitCalls c fuel [root] { s with applied := 0 }

/-- The calls of all passes, also of the one that is made on a copy in the end. -/
def runFromCalls (rules : List Rule) (resolver : Resolver) (limits : Limits) (fuel : Nat) :
    (left : Nat) → RunOutcome → State → List Call
  | 0, o, s => passCalls ⟨rules, resolver, limits, o.passes + 1⟩ fuel s
  | left + 1, o, s =>
    passCalls ⟨rules, resolver, limits, o.passes + 1⟩ fuel s ++
      match pass ⟨rules, resolver, limits, o.passes + 1⟩ fuel s with
      | none => []
      | some s =>
        if s.applied = 0 then []
        else runFromCalls rules resolver limits fuel left
          ⟨true, false, o.passes + 1, o.applied + s.applied⟩ s

def runCalls (rules : List Rule) (resolver : Resolver) (limits : Limits) (fuel : Nat)
    (t : SyntaxTree) : List Call :=
  runFromCalls rules resolver limits fuel limits.passBound ⟨false, false, 0, 0⟩ ⟨t, [], [], 0⟩

section Complete

/-- A rule does the same as before at the calls that are made. -/
def Agrees (f : Rule → Rule) (calls : List Call) : Prop :=
  ∀ x ∈ calls, (f x.rule).act x.node = x.rule.act x.node

/-- The setting with other rules in the place of the rules. -/
def Setting.withRules (c : Setting) (f : Rule → Rule) : Setting := { c with rules := c.rules.map f }

variable {f : Rule → Rule} (hi : ∀ r, (f r).info = r.info)
  (hg : ∀ r, (f r).granularity = r.granularity) {c : Setting} {r : Rule} {n : NodeId} {s : State}

include hi in
theorem invoke_withRules (ha : (f r).act n = r.act n) (s : State) :
    invoke (c.withRules f) (f r) n s = invoke c r n s := by
  have hid : (f r).id = r.id := congrArg RuleInfo.id (hi r)
  simp only [invoke, ha, hid]
  rfl

include hi hg

theorem offer_withRules (i : Nat) {left attempts : Nat}
    (h : Agrees f (offerCalls c r left attempts n s)) :
    offer (c.withRules f) (f r) i left attempts n s = offer c r i left attempts n s := by
  induction left generalizing attempts n s with
  | zero => rfl
  | succ left ih =>
    rw [offerCalls] at h
    rw [offer, offer, hg]
    split
    · rfl
    next ha =>
      rw [if_neg ha] at h
      obtain ⟨hcall, hrest⟩ := List.forall_mem_cons.mp h
      rw [invoke_withRules hi (show (f r).act n = r.act n from hcall), hi, Rule.id, hi, ← Rule.id]
      generalize invoke c r n s = out at hrest
      obtain ⟨attempt, s₁⟩ := out
      cases attempt with
      | noMatch => rfl
      | failed => rfl
      | applied =>
        dsimp only at hrest ⊢
        cases hm : follow s₁.tree n with
        | none => rfl
        | some m =>
          rw [hm] at hrest
          dsimp only at hrest ⊢
          split
          · rfl
          next ho =>
            rw [if_neg ho] at hrest
            by_cases hcap : c.limits.retryCap ≤ attempts + 1
            · rw [if_pos hcap]
              exact if_pos hcap
            · rw [if_neg hcap] at hrest ⊢
              exact (if_neg hcap).trans (ih hrest)

theorem offerAll_withRules (i : Nat) {rules : List Rule}
    (h : Agrees f (offerAllCalls c i rules n s)) :
    offerAll (c.withRules f) i (rules.map f) n s = offerAll c i rules n s := by
  induction rules generalizing i n s with
  | nil => rfl
  | cons r rules ih =>
    rw [offerAllCalls] at h
    rw [List.map_cons, offerAll, offerAll]
    split
    next hd =>
      rw [if_pos hd] at h
      exact ih (i + 1) h
    next hd =>
      rw [if_neg hd] at h
      obtain ⟨hcalls, hrest⟩ := List.forall_mem_append.mp h
      have ho := offer_withRules hi hg i hcalls
      rw [show (c.withRules f).limits = c.limits from rfl, ho]
      split
      · rfl
      next m s₁ he =>
        rw [he] at hrest
        exact ih (i + 1) hrest

theorem visit_withRules {fuel : Nat} {work : List NodeId}
    (h : Agrees f (visitCalls c fuel work s)) :
    visit (c.withRules f) fuel work s = visit c fuel work s := by
  induction fuel generalizing work s with
  | zero => cases work <;> rfl
  | succ fuel ih =>
    cases work with
    | nil => rfl
    | cons n work =>
      rw [visitCalls] at h
      rw [visit, visit]
      split
      next hn =>
        rw [if_pos hn] at h
        exact ih h
      next hn =>
        rw [if_neg hn] at h
        obtain ⟨hcalls, hrest⟩ := List.forall_mem_append.mp h
        rw [show (c.withRules f).rules = c.rules.map f from rfl, offerAll_withRules hi hg 0 hcalls]
        split
        next s₁ he =>
          rw [he] at hrest
          exact ih hrest
        next m s₁ he =>
          rw [he] at hrest
          exact ih hrest

theorem pass_withRules {fuel : Nat} (h : Agrees f (passCalls c fuel s)) :
    pass (c.withRules f) fuel s = pass c fuel s := by
  rw [passCalls] at h
  rw [pass, pass]
  split
  · rfl
  next root hroot =>
    rw [hroot] at h
    exact visit_withRules hi hg h

theorem runFrom_withRules {rules : List Rule} {res : Resolver} {limits : Limits} {fuel left : Nat}
    {o : RunOutcome} (h : Agrees f (runFromCalls rules res limits fuel left o s)) :
    runFrom (rules.map f) res limits fuel left o s = runFrom rules res limits fuel left o s := by
  induction left generalizing o s with
  | zero =>
    have hp := pass_withRules hi hg (c := ⟨rules, res, limits, o.passes + 1⟩) h
    simp only [runFrom, finish, probe]
    rw [← hp]
    rfl
  | succ left ih =>
    rw [runFromCalls] at h
    obtain ⟨hcalls, hrest⟩ := List.forall_mem_append.mp h
    have hp := pass_withRules hi hg hcalls
    rw [runFrom, runFrom, show pass ⟨rules.map f, res, limits, o.passes + 1⟩ fuel s = _ from hp]
    split
    · rfl
    next s₁ he =>
      rw [he] at hrest
      dsimp only at hrest
      split
      · rfl
      next ha =>
        rw [if_neg ha] at hrest
        exact ih hrest

/-- These are all calls: what a rule does elsewhere makes no difference to a session. -/
theorem run_eq_of_agrees {rules : List Rule} {res : Resolver} {limits : Limits} {fuel : Nat}
    {t : SyntaxTree} (h : Agrees f (runCalls rules res limits fuel t)) :
    run (rules.map f) res limits fuel t = run rules res limits fuel t :=
  runFrom_withRules hi hg h

end Complete

section Kept

variable {c : Setting} {r : Rule} {n : NodeId} {s : State} {P : Option NodeId → SyntaxTree → Prop}
  (hf : ∀ m t, P (some m) t → P (follow t m) t)

/-- A call leaves behind what it found. -/
def Call.Keeps (P : Option NodeId → SyntaxTree → Prop) (x : Call) : Prop :=
  P (some x.node) x.before.tree → P (some x.node) x.outcome.tree

include hf

/-- What every call leaves behind, also where a place is passed on, is there after a place was offered. -/
theorem offer_kept (i left attempts : Nat) (hc : ∀ x ∈ offerCalls c r left attempts n s, x.Keeps P)
    (h : P (some n) s.tree) :
    P (offer c r i left attempts n s).1 (offer c r i left attempts n s).2.tree := by
  induction left generalizing attempts n s with
  | zero => exact h
  | succ left ih =>
    rw [offerCalls] at hc
    rw [offer]
    split
    · exact h
    next ha =>
      rw [if_neg ha] at hc
      obtain ⟨hcall, hrest⟩ := List.forall_mem_cons.mp hc
      have hu : P (some n) (tried c r n s).tree := hcall h
      cases hv : (tried c r n s).value with
      | error e =>
        rw [invoke_eq_of_broken hv]
        exact hu
      | ok b =>
        by_cases hrev : (tried c r n s).tree.revision = s.tree.revision
        · rw [invoke_eq_of_idle ⟨b, hv⟩ hrev]
          exact hu
        · rw [invoke_eq_of_change ⟨b, hv⟩ hrev] at hrest ⊢
          have hto : P (follow (s.changed (tried c r n s) (appliedEvent c r n s)).tree n)
              (tried c r n s).tree := hf n _ hu
          dsimp only at hrest ⊢
          cases hm : follow (s.changed (tried c r n s) (appliedEvent c r n s)).tree n with
          | none => rwa [hm] at hto
          | some m =>
            rw [hm] at hrest hto
            dsimp only at hrest ⊢
            split
            · exact hto
            next hrep =>
              rw [if_neg hrep] at hrest
              split
              · exact hto
              next hcap =>
                rw [if_neg hcap] at hrest
                exact ih (attempts + 1) hrest hto

theorem offerAll_kept (i : Nat) {rules : List Rule} (hc : ∀ x ∈ offerAllCalls c i rules n s, x.Keeps P)
    (h : P (some n) s.tree) : P (offerAll c i rules n s).1 (offerAll c i rules n s).2.tree := by
  induction rules generalizing i n s with
  | nil => exact h
  | cons r rules ih =>
    rw [offerAllCalls] at hc
    rw [offerAll]
    split
    next hd =>
      rw [if_pos hd] at hc
      exact ih (i + 1) hc h
    next hd =>
      rw [if_neg hd] at hc
      obtain ⟨hcalls, hrest⟩ := List.forall_mem_append.mp hc
      have ho := offer_kept hf i (max c.limits.retryCap 1) 0 hcalls h
      cases he : offer c r i (max c.limits.retryCap 1) 0 n s with
      | mk place s₁ =>
        rw [he] at ho hrest
        cases place with
        | none => exact ho
        | some m => exact ih (i + 1) hrest ho

end Kept

section Attached

variable {rules : List Rule} {c : Setting} {r : Rule} {n : NodeId} {s s' : State} {t : SyntaxTree}
  {past calls calls' : List Call} {x : Call}

/-- The tree after some calls. What died in a call is dead. -/
structure After (past : List Call) (t : SyntaxTree) : Prop where
  linked : t.Linked
  lives : ∀ x ∈ past, x.before.tree.Lives x.outcome.tree ∧ x.outcome.tree.Lives t

/-- The node of a place is attached, or an earlier call has destroyed it. -/
def Held (past : List Call) (n : NodeId) (t : SyntaxTree) : Prop :=
  t.isAttached n = true ∨ ∃ x ∈ past, x.node = n ∧ x.Fatal

/-- The calls are made as they have to be, after those of the past. -/
def Sound (rules : List Rule) : (past calls : List Call) → Prop
  | _, [] => True
  | past, x :: calls => x.rule ∈ rules ∧
      x.rule.granularity.admits (x.before.tree.kind x.node).category = true ∧
      After past x.before.tree ∧ Held past x.node x.before.tree ∧ Sound rules (past ++ [x]) calls

theorem sound_append : Sound rules past (calls ++ calls') ↔
    Sound rules past calls ∧ Sound rules (past ++ calls) calls' := by
  induction calls generalizing past with
  | nil => simp [Sound]
  | cons x calls ih => simp [Sound, ih, and_assoc]

theorem Sound.rule_mem (h : Sound rules past calls) : ∀ x ∈ calls, x.rule ∈ rules := by
  induction calls generalizing past with
  | nil => exact nofun
  | cons x calls ih => exact List.forall_mem_cons.mpr ⟨h.1, ih h.2.2.2.2⟩

theorem After.call (h : After past s.tree) (c : Setting) (r : Rule) (n : NodeId) :
    After (past ++ [⟨c, r, n, s⟩]) (tried c r n s).tree := by
  have hl := Edit.runFrom_lives h.linked ⟨c.resolver, r.id, c.pass⟩ (r.act n) s.events
  refine ⟨(tried_edited h.linked c r n).linked, fun x hx => ?_⟩
  obtain hx | hx := List.mem_append.mp hx
  · obtain ⟨h₁, h₂⟩ := h.lives x hx
    exact ⟨h₁, h₂.trans hl⟩
  · obtain rfl := List.mem_singleton.mp hx
    exact ⟨hl, .refl _⟩

theorem Held.mono (h : Held past n t) (calls : List Call) : Held (past ++ calls) n t :=
  h.imp_right fun ⟨x, hx, h⟩ => ⟨x, List.mem_append_left _ hx, h⟩

/-- After a call that changed nothing, the place is as it was. -/
theorem Held.idle (h : Held past n s.tree) (hs : s.tree.Linked)
    (hr : (tried c r n s).tree.revision = s.tree.revision) :
    Held past n (tried c r n s).tree := by
  have he := tried_edited hs c r n
  exact h.imp_left fun hn => ((he.grown hr).attached_iff hs he.linked).mpr hn

/-- After a call that broke off, the place is as it was, or the call was fatal. -/
theorem Held.broken (h : Held past n s.tree) (hs : s.tree.Linked) {m : String}
    (hm : (tried c r n s).value = .error m) :
    Held (past ++ [⟨c, r, n, s⟩]) n (tried c r n s).tree := by
  obtain hn | hf := h
  · have hl := Edit.runFrom_lives hs ⟨c.resolver, r.id, c.pass⟩ (r.act n) s.events
    obtain ha | hd := hl.attached hn
    · exact .inl ha
    · exact .inr ⟨_, List.mem_append_right _ (List.mem_singleton_self _), rfl, hn, ⟨m, hm⟩, hd⟩
  · exact Held.mono (.inr hf) _

/-- Calls that are made as they have to be, and what they leave behind. -/
structure Leads (rules : List Rule) (past calls : List Call) (out : Option NodeId × State) :
    Prop where
  sound : Sound rules past calls
  after : After (past ++ calls) out.2.tree
  held : ∀ m, out.1 = some m → Held (past ++ calls) m out.2.tree

theorem Leads.stay (ha : After past s.tree) (hn : Held past n s.tree) :
    Leads rules past [] (some n, s) := by
  refine ⟨trivial, ?_, fun m hm => ?_⟩
  · rwa [List.append_nil]
  · rwa [List.append_nil, ← Option.some.inj hm]

theorem Leads.leave (ha : After past s.tree) : Leads rules past [] (none, s) :=
  ⟨trivial, by rwa [List.append_nil], nofun⟩

theorem Leads.cons {out : Option NodeId × State} (hr : x.rule ∈ rules)
    (hadm : x.rule.granularity.admits (x.before.tree.kind x.node).category = true)
    (ha : After past x.before.tree) (hn : Held past x.node x.before.tree)
    (h : Leads rules (past ++ [x]) calls out) : Leads rules past (x :: calls) out where
  sound := ⟨hr, hadm, ha, hn, h.sound⟩
  after := by
    rw [List.append_cons]
    exact h.after
  held := by
    rw [List.append_cons]
    exact h.held

theorem Leads.trans {out out' : Option NodeId × State} (h : Leads rules past calls out)
    (h' : Leads rules (past ++ calls) calls' out') : Leads rules past (calls ++ calls') out' where
  sound := sound_append.mpr ⟨h.sound, h'.sound⟩
  after := by
    rw [← List.append_assoc]
    exact h'.after
  held := by
    rw [← List.append_assoc]
    exact h'.held

theorem offer_leads (hr : r ∈ rules) (i left attempts : Nat) (ha : After past s.tree)
    (hn : Held past n s.tree) :
    Leads rules past (offerCalls c r left attempts n s) (offer c r i left attempts n s) := by
  induction left generalizing past attempts n s with
  | zero => exact .stay ha hn
  | succ left ih =>
    rw [offer, offerCalls]
    split
    · exact .stay ha hn
    next hadm =>
      refine .cons hr (by simpa using hadm) ha hn ?_
      have hcall := ha.call c r n
      cases hv : (tried c r n s).value with
      | error m =>
        rw [invoke_eq_of_broken hv]
        exact .stay hcall (hn.broken ha.linked hv)
      | ok b =>
        by_cases h : (tried c r n s).tree.revision = s.tree.revision
        · rw [invoke_eq_of_idle ⟨b, hv⟩ h]
          exact .stay hcall ((hn.idle ha.linked h).mono _)
        · rw [invoke_eq_of_change ⟨b, hv⟩ h]
          dsimp only
          cases hm : follow (s.changed (tried c r n s) (appliedEvent c r n s)).tree n with
          | none => exact .leave hcall
          | some m =>
            have hma : Held (past ++ [⟨c, r, n, s⟩]) m (tried c r n s).tree :=
              .inl (Option.filter_eq_some_iff.mp hm).2
            dsimp only
            split
            · exact .stay hcall hma
            · split
              · exact .stay hcall hma
              · exact ih (attempts + 1) hcall hma

theorem offerAll_leads (i : Nat) {rs : List Rule} (hr : ∀ r ∈ rs, r ∈ rules)
    (ha : After past s.tree) (hn : Held past n s.tree) :
    Leads rules past (offerAllCalls c i rs n s) (offerAll c i rs n s) := by
  induction rs generalizing past i n s with
  | nil => exact .stay ha hn
  | cons r rs ih =>
    obtain ⟨hr₁, hr₂⟩ := List.forall_mem_cons.mp hr
    rw [offerAll, offerAllCalls]
    split
    · exact ih (i + 1) hr₂ ha hn
    · have ho := offer_leads (c := c) hr₁ i (max c.limits.retryCap 1) 0 ha hn
      cases he : offer c r i (max c.limits.retryCap 1) 0 n s with
      | mk place s₁ =>
        rw [he] at ho
        cases place with
        | none => exact ho.trans (.leave ho.after)
        | some m => exact ho.trans (ih (i + 1) hr₂ ho.after (ho.held m rfl))

theorem visit_sound {fuel : Nat} {work : List NodeId} (ha : After past s.tree) :
    Sound c.rules past (visitCalls c fuel work s) ∧ ∀ s', visit c fuel work s = some s' →
      After (past ++ visitCalls c fuel work s) s'.tree := by
  induction fuel generalizing past work s with
  | zero =>
    cases work with
    | nil => exact ⟨trivial, fun s' h => by rwa [visitCalls, List.append_nil, ← Option.some.inj h]⟩
    | cons n work => exact ⟨trivial, nofun⟩
  | succ fuel ih =>
    cases work with
    | nil => exact ⟨trivial, fun s' h => by rwa [visitCalls, List.append_nil, ← Option.some.inj h]⟩
    | cons n work =>
      rw [visit, visitCalls]
      split
      · exact ih ha
      next hn =>
        have ho := offerAll_leads (c := c) 0 (fun r (hr : r ∈ c.rules) => hr) ha
          (.inl (by simpa using hn))
        cases he : offerAll c 0 c.rules n s with
        | mk place s₁ =>
          rw [he] at ho
          rw [sound_append, ← List.append_assoc]
          cases place with
          | none =>
            exact (ih ho.after).imp_left fun hs => ⟨ho.sound, hs⟩
          | some m =>
            exact (ih ho.after).imp_left fun hs => ⟨ho.sound, hs⟩

theorem pass_sound (fuel : Nat) (ha : After past s.tree) :
    Sound c.rules past (passCalls c fuel s) ∧ ∀ s', pass c fuel s = some s' →
      After (past ++ passCalls c fuel s) s'.tree := by
  rw [pass, passCalls]
  cases s.tree.root with
  | none => exact ⟨trivial, fun s' h => by rwa [List.append_nil, ← Option.some.inj h]⟩
  | some root => exact visit_sound ha

/-- Only the rules of the setting are called. -/
theorem rule_mem_of_passCalls (hs : s.tree.Linked) (fuel : Nat) : ∀ x ∈ passCalls c fuel s, x.rule ∈ c.rules :=
  have hafter : After [] s.tree := ⟨hs, nofun⟩
  (pass_sound fuel hafter).1.rule_mem

variable {res : Resolver} {limits : Limits} {fuel left : Nat} {o : RunOutcome}

theorem runFrom_sound (ha : After past s.tree) :
    Sound rules past (runFromCalls rules res limits fuel left o s) := by
  induction left generalizing past o s with
  | zero => exact (pass_sound (c := ⟨rules, res, limits, o.passes + 1⟩) fuel ha).1
  | succ left ih =>
    have hp := pass_sound (c := ⟨rules, res, limits, o.passes + 1⟩) fuel ha
    rw [runFromCalls, sound_append]
    refine ⟨hp.1, ?_⟩
    cases he : pass ⟨rules, res, limits, o.passes + 1⟩ fuel s with
    | none => trivial
    | some s₁ =>
      dsimp only
      split
      · trivial
      · exact ih (hp.2 s₁ he)

/-- The calls of a session: each is made with a node of a category that the rule admits, and the
node is attached unless an earlier call has destroyed it and broken off then. -/
theorem run_calls {before after : List Call} (ht : t.Linked)
    (h : runCalls rules res limits fuel t = before ++ x :: after) :
    x.rule ∈ rules ∧ x.rule.granularity.admits (x.before.tree.kind x.node).category = true ∧
      (x.before.tree.isAttached x.node = false ↔ ∃ y ∈ before, y.node = x.node ∧ y.Fatal) := by
  have hs : Sound rules [] (runCalls rules res limits fuel t) := runFrom_sound ⟨ht, by simp⟩
  rw [h, sound_append] at hs
  obtain ⟨-, hr, hadm, ha, hn, -⟩ := hs
  refine ⟨hr, hadm, fun hna => ?_, ?_⟩
  · obtain hn | hn := hn
    · rw [hn] at hna
      cases hna
    · exact hn
  · rintro ⟨y, hy, he, hf⟩
    obtain ⟨h₁, h₂⟩ := ha.lives y hy
    have hlt : y.node < y.outcome.tree.size :=
      lt_of_lt_of_le (lt_of_alive (attached_alive hf.live)) h₁.size
    have hdead := h₂.dead hlt hf.dead
    rw [← he, ← Bool.not_eq_true]
    intro hat
    rw [attached_alive hat] at hdead
    cases hdead

end Attached

section Example

/-- A rule that puts a block in the place of an empty statement and breaks off then, and one that
does nothing. -/
def fatalRules : List Rule :=
  [withBlock fun n m => (Edit.replace n m).andThen fun _ => .broken "after the change",
    withBlock fun _ _ => .done false]

/-- The second rule is called with the empty statement, which is dead then. -/
theorem secondRule_called_with_dead : ∃ x y, loneEmptyStmt.Linked ∧
    runCalls fatalRules .unresolved ⟨1, 1⟩ 1 loneEmptyStmt = [y, x] ∧
    x.before.tree.isAttached x.node = false := by
  refine ⟨_, _, linked_history 1 _, rfl, ?_⟩
  decide

/-- That is because the first one broke off. -/
theorem fatalRules_calls : ∃ x y, runCalls fatalRules .unresolved ⟨1, 1⟩ 1 loneEmptyStmt = [y, x] ∧
    x.before.tree.isAttached x.node = false ∧ ∃ z ∈ [y], z.node = x.node ∧ z.Fatal := by
  have hcalls : ∃ x y, runCalls fatalRules .unresolved ⟨1, 1⟩ 1 loneEmptyStmt = [y, x] ∧
      x.before.tree.isAttached x.node = false := ⟨_, _, rfl, by decide⟩
  obtain ⟨x, y, h, hx⟩ := hcalls
  have hsplit : runCalls fatalRules .unresolved ⟨1, 1⟩ 1 loneEmptyStmt = [y] ++ x :: [] := h
  obtain ⟨-, -, hiff⟩ := run_calls (linked_history 1 _) hsplit
  exact ⟨x, y, h, hx, hiff.mp hx⟩

end Example

end TreeTidy.Session
