import TreeTidy.Engine.Session
import TreeTidy.Proofs.Engine.Turns
import TreeTidy.Proofs.Resolve.Cache
import TreeTidy.Proofs.Rules.Performed
import TreeTidy.Proofs.Tree.RenamedMaking
import TreeTidy.Proofs.Tree.Settled
/-!
Programs and sessions in lockstep, on two trees that are the same under a renaming. Programs that do
the same to corresponding nodes leave trees that are the same again, and events that read the same.
-/
namespace TreeTidy

open SyntaxTree

namespace Edit

variable {α : Type}

theorem andThen_assoc {β γ : Type} (e : Edit α) (f : α → Edit β) (h : β → Edit γ) :
    (e.andThen f).andThen h = e.andThen fun a => (f a).andThen h := by
  induction e with
  | done a => rfl
  | broken m => rfl
  | look next ih => exact congrArg look (funext ih)
  | create s next ih => exact congrArg (create s) (funext ih)
  | clone n next ih => exact congrArg (clone n) (funext ih)
  | change c next ih => exact congrArg (change c) (funext ih)

/-- What programs leave behind is orderly. -/
theorem runFrom_orderly {t : SyntaxTree} (ht : t.Orderly) (x : Setting) (e : Edit α) (es : List Event) :
    (e.runFrom x t es).tree.Orderly := by
  induction e generalizing t es with
  | done a => exact ht
  | broken m => exact ht
  | look next ih => exact ih _ ht es
  | create s next ih =>
    have hp := ht.perform (.create s)
    simp only [runFrom]
    cases h : t.create? s with
    | ok r =>
      rw [Operation.perform, h] at hp
      exact ih _ hp es
    | error e => exact ih _ ht es
  | clone n next ih => exact ih _ (ht.perform (.clone n)) es
  | change c next ih =>
    have hp := ht.perform (.change c)
    simp only [runFrom]
    cases h : c.appliedTo? t with
    | some u =>
      rw [Operation.perform, h] at hp
      exact ih _ hp es
    | none => exact ih _ ht _

/-- The outcomes are the same but for the numbers of the nodes. -/
structure Alike (g : NodeId → NodeId) (k : Nat) (o o' : Outcome α) : Prop where
  value : o'.value = o.value
  tree : Renamed g k o.tree o'.tree
  texts : o'.events.map Event.text = o.events.map Event.text

/-- A change at corresponding nodes applies to both trees, or is rejected on both. -/
theorem alike_change {g : NodeId → NodeId} {k : Nat} {x y : Setting} {u t : SyntaxTree} {es es' : List Event}
    (h : Renamed g k u t) (hrule : y.rule = x.rule) (hpass : y.pass = x.pass)
    (hes : es'.map Event.text = es.map Event.text) (hu : u.Linked) (c : Change) :
    Alike g k ((change c done).runFrom x u es) ((change (c.rename g) done).runFrom y t es') := by
  simp only [runFrom]
  have hc := h.appliedTo? hu c
  generalize c.appliedTo? u = o at hc
  generalize (c.rename g).appliedTo? t = o' at hc
  cases hc with
  | none =>
    refine ⟨rfl, h, ?_⟩
    rw [List.map_append, List.map_append, hes, Change.site_rename, Change.word_rename, h.span, hrule, hpass]
    rfl
  | some hr => exact ⟨rfl, hr, hes⟩

end Edit

end TreeTidy

/-! Rules that do the same to both trees make the same changes at the same places, so every pass
ends in trees that are the same again. What the resolvers say of detached nodes makes no difference,
as every place that a rule is tried at is attached. -/
namespace TreeTidy

open SyntaxTree

/-- At attached nodes that correspond, the rule does the same to trees that are the same under a
renaming, whatever resolvers it asks that are right; and if it breaks off, then before it changes anything. -/
structure Rule.Blind (classes : ClassTable) (r : Rule) : Prop where
  alike : ∀ {g k} {u t : SyntaxTree} {es es' : List Event} {n : NodeId} {x y : Edit.Setting},
    x.resolver.Faithful classes → y.resolver.Faithful classes → y.rule = x.rule → y.pass = x.pass →
    Renamed g k u t → u.Orderly → t.Orderly → u.isAttached n = true →
    es'.map Event.text = es.map Event.text →
    Edit.Alike g k ((r.act n).runFrom x u es) ((r.act (g n)).runFrom y t es')
  whole : ∀ {u : SyntaxTree} {es : List Event} {n : NodeId} {x : Edit.Setting} {m : String}, u.Linked →
    ((r.act n).runFrom x u es).value = .error m →
    ((r.act n).runFrom x u es).tree.revision = u.revision

/-- A node is attached still if the rule broke off there, or did not change the tree. -/
theorem Rule.Blind.attached {classes : ClassTable} {r : Rule} (h : r.Blind classes) {u : SyntaxTree}
    {n : NodeId} (x : Edit.Setting) (es : List Event) (hu : u.Linked) (hn : u.isAttached n = true)
    (hidle : (∃ m, ((r.act n).runFrom x u es).value = .error m) ∨
      ((r.act n).runFrom x u es).tree.revision = u.revision) :
    ((r.act n).runFrom x u es).tree.isAttached n = true := by
  have he := Edit.runFrom_edited hu x (r.act n) es
  have hsame : ((r.act n).runFrom x u es).tree.revision = u.revision := by
    rcases hidle with ⟨m, hm⟩ | h'
    · exact h.whole hu hm
    · exact h'
  exact ((he.grown hsame).attached_iff hu he.linked).mpr hn

namespace Session

variable {classes : ClassTable} {g : NodeId → NodeId} {k : Nat} {c c' : Setting} {r : Rule} {s s' : State}

/-- Settings that differ in nothing but the resolvers, which are right. -/
structure Setting.Alike (classes : ClassTable) (c c' : Setting) : Prop where
  rules : c'.rules = c.rules
  limits : c'.limits = c.limits
  pass : c'.pass = c.pass
  faithful : c.resolver.Faithful classes
  faithful' : c'.resolver.Faithful classes
  blind : ∀ r ∈ c.rules, r.Blind classes

/-- States that are the same but for the numbers of the nodes. -/
structure State.Alike (g : NodeId → NodeId) (k : Nat) (s s' : State) : Prop where
  tree : Renamed g k s.tree s'.tree
  orderly : s.tree.Orderly
  orderly' : s'.tree.Orderly
  disabled : s'.disabled = s.disabled
  texts : s'.events.map Event.text = s.events.map Event.text
  applied : s'.applied = s.applied

theorem State.Alike.record (h : State.Alike g k s s') (e e' : Event) (he : e'.text = e.text) :
    State.Alike g k (s.record e) (s'.record e') where
  tree := h.tree
  orderly := h.orderly
  orderly' := h.orderly'
  disabled := h.disabled
  texts := by
    rw [State.record, State.record, List.map_append, List.map_append, h.texts, List.map_singleton,
      List.map_singleton, he]
  applied := h.applied

theorem follow_renamed {u t : SyntaxTree} (h : Renamed g k u t) (hu : u.Linked) (n : NodeId) :
    follow t (g n) = (follow u n).map g := by
  rw [follow, follow, h.successor?]
  cases u.successor? n with
  | none => rfl
  | some m =>
    simp only [Option.map_some, Option.filter_some, h.isAttached hu]
    split <;> rfl

section Steps

variable (hc : Setting.Alike classes c c')
include hc

/-- A try comes out the same; and if the rule changed nothing, then the node is attached as before. -/
theorem invoke_alike (hr : r ∈ c.rules) {n : NodeId} (hn : s.tree.isAttached n = true)
    (h : State.Alike g k s s') :
    (invoke c' r (g n) s').1 = (invoke c r n s).1 ∧
      State.Alike g k (invoke c r n s).2 (invoke c' r (g n) s').2 ∧
      ((invoke c r n s).1 ≠ .applied → (invoke c r n s).2.tree.isAttached n = true) := by
  have hx := (hc.blind r hr).alike (x := ⟨c.resolver, r.id, c.pass⟩) (y := ⟨c'.resolver, r.id, c'.pass⟩)
    hc.faithful hc.faithful' rfl hc.pass h.tree h.orderly h.orderly' hn h.texts
  have hkept := (hc.blind r hr).attached ⟨c.resolver, r.id, c.pass⟩ s.events h.orderly.linked hn
  have hu := Edit.runFrom_orderly h.orderly ⟨c.resolver, r.id, c.pass⟩ (r.act n) s.events
  have ht := Edit.runFrom_orderly h.orderly' ⟨c'.resolver, r.id, c'.pass⟩ (r.act (g n)) s'.events
  simp only [invoke]
  generalize (r.act n).runFrom ⟨c.resolver, r.id, c.pass⟩ s.tree s.events = o at hx hkept hu
  generalize (r.act (g n)).runFrom ⟨c'.resolver, r.id, c'.pass⟩ s'.tree s'.events = o' at hx ht
  have hafter : State.Alike g k { s with tree := o.tree, events := o.events }
      { s' with tree := o'.tree, events := o'.events } :=
    ⟨hx.tree, hu, ht, h.disabled, hx.texts, h.applied⟩
  have hrev : o'.tree.revision = s'.tree.revision ↔ o.tree.revision = s.tree.revision := by
    rw [hx.tree.revision, h.tree.revision, Nat.add_right_cancel_iff]
  rw [hx.value, h.tree.span, hc.pass]
  cases hv : o.value with
  | error message => exact ⟨rfl, hafter.record _ _ rfl, fun _ => hkept (.inl ⟨message, hv⟩)⟩
  | ok b =>
    simp only [hrev]
    split
    next hsame => exact ⟨rfl, hafter, fun _ => hkept (.inr hsame)⟩
    · have hrec := hafter.record ⟨c.pass, some r.id, some n, s.tree.span n, .applied⟩
        ⟨c.pass, some r.id, some (g n), s.tree.span n, .applied⟩ rfl
      exact ⟨rfl, ⟨hrec.tree, hu, ht, h.disabled, hrec.texts, congrArg (· + 1) h.applied⟩,
        fun hne => absurd rfl hne⟩

/-- What comes of offering a place: states alike, and corresponding nodes there that are attached. -/
def Met (g : NodeId → NodeId) (k : Nat) (o o' : Option NodeId × State) : Prop :=
  o'.1 = o.1.map g ∧ State.Alike g k o.2 o'.2 ∧ ∀ m, o.1 = some m → o.2.tree.isAttached m = true

omit hc in
theorem met_some {n : NodeId} (hn : s.tree.isAttached n = true) (h : State.Alike g k s s') :
    Met g k (some n, s) (some (g n), s') :=
  ⟨rfl, h, fun _ hm => Option.some.inj hm ▸ hn⟩

omit hc in
theorem met_none (h : State.Alike g k s s') : Met g k (none, s) (none, s') :=
  ⟨rfl, h, nofun⟩

theorem offer_alike (hr : r ∈ c.rules) (i left attempts : Nat) {n : NodeId}
    (hn : s.tree.isAttached n = true) (h : State.Alike g k s s') :
    Met g k (offer c r i left attempts n s) (offer c' r i left attempts (g n) s') := by
  induction left generalizing attempts n s s' with
  | zero => exact met_some hn h
  | succ left ih =>
    obtain ⟨he, ha, hk⟩ := invoke_alike hc hr hn h
    rw [offer, offer, h.tree.kind]
    generalize invoke c r n s = o at he ha hk
    generalize invoke c' r (g n) s' = o' at he ha
    obtain ⟨attempt, s₁⟩ := o
    obtain ⟨attempt', s₁'⟩ := o'
    obtain rfl : attempt' = attempt := he
    split
    · exact met_some hn h
    cases attempt' with
    | noMatch => exact met_some (hk (by rintro ⟨⟩)) ha
    | failed =>
      have hfailed : State.Alike g k { s₁ with disabled := i :: s₁.disabled }
          { s₁' with disabled := i :: s₁'.disabled } :=
        ⟨ha.tree, ha.orderly, ha.orderly', congrArg (i :: ·) ha.disabled, ha.texts, ha.applied⟩
      exact met_some (s := { s₁ with disabled := i :: s₁.disabled }) (hk (by rintro ⟨⟩)) hfailed
    | applied =>
      simp only [follow_renamed ha.tree ha.orderly.linked]
      cases hf : follow s₁.tree n with
      | none => exact met_none ha
      | some m =>
        have hm := (Option.filter_eq_some_iff.mp hf).2
        simp only [Option.map_some, hc.limits]
        split
        · exact met_some hm ha
        split
        · refine met_some (s := s₁.record _) hm (ha.record _ _ ?_)
          rw [ha.tree.span, hc.pass]
          rfl
        · exact ih (attempts + 1) hm ha

theorem offerAll_alike (i : Nat) {rules : List Rule} (hr : ∀ r ∈ rules, r ∈ c.rules) {n : NodeId}
    (hn : s.tree.isAttached n = true) (h : State.Alike g k s s') :
    Met g k (offerAll c i rules n s) (offerAll c' i rules (g n) s') := by
  induction rules generalizing i n s s' with
  | nil => exact met_some hn h
  | cons r rules ih =>
    obtain ⟨hr, hrs⟩ := List.forall_mem_cons.mp hr
    obtain ⟨he, ha, hm⟩ := offer_alike hc hr i (max c.limits.retryCap 1) 0 hn h
    rw [offerAll, offerAll, h.disabled, hc.limits]
    generalize offer c r i (max c.limits.retryCap 1) 0 n s = o at he ha hm
    generalize offer c' r i (max c.limits.retryCap 1) 0 (g n) s' = o' at he ha
    obtain ⟨found, s₁⟩ := o
    obtain ⟨found', s₁'⟩ := o'
    obtain rfl : found' = found.map g := he
    split
    · exact ih (i + 1) hrs hn h
    cases found with
    | none => exact met_none ha
    | some m => exact ih (i + 1) hrs (hm m rfl) ha

theorem visit_alike (fuel : Nat) (work : List NodeId) (h : State.Alike g k s s') :
    Option.Rel (State.Alike g k) (visit c fuel work s) (visit c' fuel (work.map g) s') := by
  induction fuel generalizing work s s' with
  | zero =>
    cases work with
    | nil => exact .some h
    | cons n work => exact .none
  | succ fuel ih =>
    cases work with
    | nil => exact .some h
    | cons n work =>
      rw [List.map_cons, visit, visit, h.tree.isAttached h.orderly.linked, hc.rules]
      by_cases hn : s.tree.isAttached n = true
      · obtain ⟨he, ha, -⟩ := offerAll_alike hc 0 (fun r hr => hr) hn h
        simp only [hn, Bool.not_true, Bool.false_eq_true, if_false]
        generalize offerAll c 0 c.rules n s = o at he ha
        generalize offerAll c' 0 c.rules (g n) s' = o' at he ha
        obtain ⟨found, s₁⟩ := o
        obtain ⟨found', s₁'⟩ := o'
        obtain rfl : found' = found.map g := he
        cases found with
        | none => exact ih work ha
        | some m =>
          have hv := ih (s₁.tree.children m ++ work) ha
          rwa [List.map_append, ← ha.tree.children] at hv
      · simp only [hn, Bool.not_false, if_true]
        exact ih work h

theorem pass_alike (fuel : Nat) (h : State.Alike g k s s') :
    Option.Rel (State.Alike g k) (Session.pass c fuel s) (Session.pass c' fuel s') := by
  have h₀ : State.Alike g k { s with applied := 0 } { s' with applied := 0 } :=
    ⟨h.tree, h.orderly, h.orderly', h.disabled, h.texts, rfl⟩
  rw [Session.pass, Session.pass, h.tree.root]
  cases s.tree.root with
  | none => exact .some h₀
  | some r => exact visit_alike hc fuel [r] h₀

end Steps

/-- Results that are the same but for the numbers of the nodes. -/
structure Result.Alike (g : NodeId → NodeId) (k : Nat) (r r' : Result) : Prop where
  tree : Renamed g k r.tree r'.tree
  linked : r.tree.Linked
  outcome : r'.outcome = r.outcome
  texts : r'.events.map Event.text = r.events.map Event.text

section Runs

variable {rules : List Rule} {res res' : Resolver} (hr : ∀ r ∈ rules, r.Blind classes)
  (hres : res.Faithful classes) (hres' : res'.Faithful classes)
include hr hres hres'

theorem finish_alike (limits : Limits) (fuel : Nat) (o : RunOutcome) (h : State.Alike g k s s') :
    Option.Rel (Result.Alike g k) (finish rules res limits fuel o s)
      (finish rules res' limits fuel o s') := by
  have hc : Setting.Alike classes ⟨rules, res, limits, o.passes + 1⟩ ⟨rules, res', limits, o.passes + 1⟩ :=
    ⟨rfl, rfl, rfl, hres, hres', hr⟩
  have hp := pass_alike hc fuel h
  rw [finish, finish, probe, probe]
  generalize Session.pass ⟨rules, res, limits, o.passes + 1⟩ fuel s = p at hp
  generalize Session.pass ⟨rules, res', limits, o.passes + 1⟩ fuel s' = p' at hp
  cases hp with
  | none => exact .none
  | some h₁ =>
    simp only [Option.map_some, h₁.applied]
    refine .some ⟨h.tree, h.orderly.linked, rfl, ?_⟩
    split
    · exact h.texts
    · rw [List.map_append, List.map_append, h.texts]
      rfl

theorem runFrom_alike (limits : Limits) (fuel left : Nat) (o : RunOutcome) (h : State.Alike g k s s') :
    Option.Rel (Result.Alike g k) (runFrom rules res limits fuel left o s)
      (runFrom rules res' limits fuel left o s') := by
  induction left generalizing o s s' with
  | zero => exact finish_alike hr hres hres' limits fuel o h
  | succ left ih =>
    have hc : Setting.Alike classes ⟨rules, res, limits, o.passes + 1⟩ ⟨rules, res', limits, o.passes + 1⟩ :=
      ⟨rfl, rfl, rfl, hres, hres', hr⟩
    have hp := pass_alike hc fuel h
    rw [runFrom, runFrom]
    generalize Session.pass ⟨rules, res, limits, o.passes + 1⟩ fuel s = p at hp
    generalize Session.pass ⟨rules, res', limits, o.passes + 1⟩ fuel s' = p' at hp
    cases hp with
    | none => exact .none
    | some h₁ =>
      simp only [h₁.applied]
      split
      · exact .some ⟨h₁.tree, h₁.orderly.linked, rfl, h₁.texts⟩
      · exact ih _ h₁

theorem run_alike (limits : Limits) (fuel : Nat) {u t : SyntaxTree} (h : Renamed g k u t) (hu : u.Orderly)
    (ht : t.Orderly) :
    Option.Rel (Result.Alike g k) (run rules res limits fuel u) (run rules res' limits fuel t) := by
  have hstart : State.Alike g k ⟨u, [], [], 0⟩ ⟨t, [], [], 0⟩ := ⟨h, hu, ht, rfl, rfl, rfl⟩
  exact runFrom_alike hr hres hres' limits fuel limits.passBound _ hstart

end Runs

end Session

end TreeTidy
