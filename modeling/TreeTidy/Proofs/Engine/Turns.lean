import Mathlib.Logic.Relation
import TreeTidy.Engine.Session
import TreeTidy.Proofs.Tree.Revision
/-!
What programs do to trees, whatever they are, and what happens in a pass, one try of a rule after the other.
A linked tree stays linked, and as long as the revision is the same, nothing that is attached was touched. As
long as no rule breaks off, every try is made at a node that is attached at that moment; and a pass that counts
no change made none.
-/
namespace TreeTidy

open SyntaxTree

/-- A program leaves a later state of the tree behind, broken off or not. -/
theorem Edit.runFrom_edited {α : Type} {t : SyntaxTree} (ht : t.Linked) (x : Setting) (e : Edit α)
    (es : List Event) : t.Edited (e.runFrom x t es).tree := by
  induction e generalizing t es with
  | done a => exact .refl ht
  | broken m => exact .refl ht
  | look next ih => exact ih _ ht es
  | create spec next ih =>
    simp only [runFrom]
    cases h : t.create? spec with
    | ok made =>
      have hc := ht.create? h
      exact (Edited.of_grown hc.linked hc.grown).trans (ih _ hc.linked es)
    | error e => exact ih _ ht es
  | clone n next ih =>
    have hc := ht.clone n
    exact (Edited.of_grown hc.linked hc.kept.grown).trans (ih _ hc.linked es)
  | change c next ih =>
    simp only [runFrom]
    cases h : c.appliedTo? t with
    | some u =>
      have hu := ht.appliedTo? h
      exact (Edited.of_bumped hu (ht.revision_appliedTo? h)).trans (ih _ hu es)
    | none => exact ih _ ht _

/-- Programs report after what was reported before. -/
theorem Edit.prefix_runFrom {α : Type} (x : Setting) (e : Edit α) (t : SyntaxTree)
    (es : List Event) : es <+: (e.runFrom x t es).events := by
  induction e generalizing t es with
  | done a => exact List.prefix_refl es
  | broken m => exact List.prefix_refl es
  | look next ih => exact ih _ t es
  | create spec next ih =>
    simp only [runFrom]
    cases t.create? spec <;> exact ih _ _ es
  | clone n next ih => exact ih _ _ es
  | change c next ih =>
    simp only [runFrom]
    cases c.appliedTo? t with
    | some u => exact ih _ u es
    | none => exact (List.prefix_append es _).trans (ih _ t _)

/-- The events before a program make no difference to it. -/
theorem Edit.runFrom_events {α : Type} (x : Setting) (e : Edit α) (t : SyntaxTree)
    (es fs : List Event) : (e.runFrom x t es).value = (e.runFrom x t fs).value ∧
      (e.runFrom x t es).tree = (e.runFrom x t fs).tree := by
  induction e generalizing t es fs with
  | done a => exact ⟨rfl, rfl⟩
  | broken m => exact ⟨rfl, rfl⟩
  | look next ih => exact ih _ t es fs
  | create spec next ih =>
    simp only [runFrom]
    cases t.create? spec <;> exact ih _ _ es fs
  | clone n next ih => exact ih _ _ es fs
  | change c next ih =>
    simp only [runFrom]
    cases c.appliedTo? t <;> exact ih _ _ _ _

namespace Session

/-- Rules that never break off where an invariant of the tree holds, and that keep it. -/
structure Tame (I : SyntaxTree → Prop) (rules : List Rule) (resolver : Resolver) : Prop where
  linked : ∀ {t}, I t → t.Linked
  whole : ∀ {r t n}, r ∈ rules → I t → t.isAttached n = true →
    r.granularity.admits (t.kind n).category = true → ∀ x : Edit.Setting, x.resolver = resolver →
    ∀ es, ∃ b, ((r.act n).runFrom x t es).value = .ok b
  kept : ∀ {r t n}, r ∈ rules → I t → t.isAttached n = true →
    r.granularity.admits (t.kind n).category = true → ∀ x : Edit.Setting, x.resolver = resolver →
    ∀ es, I ((r.act n).runFrom x t es).tree

/-- What a rule leaves behind that tries a node. -/
def tried (c : Setting) (r : Rule) (n : NodeId) (s : State) : Edit.Outcome Bool :=
  (r.act n).runFrom ⟨c.resolver, r.id, c.pass⟩ s.tree s.events

/-- The state after a try that changed nothing. -/
def State.idled (s : State) (o : Edit.Outcome Bool) : State :=
  { s with tree := o.tree, events := o.events }

/-- The state after a try that changed the tree. -/
def State.changed (s : State) (o : Edit.Outcome Bool) (e : Event) : State :=
  { (s.idled o).record e with applied := s.applied + 1 }

/-- The event of a try that changed the tree. -/
def appliedEvent (c : Setting) (r : Rule) (n : NodeId) (s : State) : Event :=
  ⟨c.pass, some r.id, some n, s.tree.span n, .applied⟩

/-- The least that a pass does. -/
inductive Turn (c : Setting) (s : State) : State → Prop
  | idle {r n} (hr : r ∈ c.rules) (hn : s.tree.isAttached n = true)
      (ha : r.granularity.admits (s.tree.kind n).category = true)
      (h : (tried c r n s).tree.revision = s.tree.revision) : Turn c s (s.idled (tried c r n s))
  | change {r n} (hr : r ∈ c.rules) (hn : s.tree.isAttached n = true)
      (ha : r.granularity.admits (s.tree.kind n).category = true)
      (h : (tried c r n s).tree.revision ≠ s.tree.revision) :
      Turn c s (s.changed (tried c r n s) (appliedEvent c r n s))
  | capped {r m k} (hr : r ∈ c.rules) :
      Turn c s (s.record ⟨c.pass, some r.id, some m, s.tree.span m, .retryCapReached k⟩)

def Turns (c : Setting) : State → State → Prop := Relation.ReflTransGen (Turn c)

/-- A later state. Changes of the tree and only they are counted. -/
structure Onward (s s' : State) : Prop where
  tree : s.tree.Edited s'.tree
  applied_le : s.applied ≤ s'.applied
  idle : s'.applied = s.applied ↔ s'.tree.revision = s.tree.revision
  disabled : s'.disabled = s.disabled
  events : s.events <+: s'.events

namespace Onward

variable {s s' s'' : State} {n : NodeId}

theorem refl (h : s.tree.Linked) : Onward s s :=
  ⟨.refl h, le_refl _, ⟨fun _ => rfl, fun _ => rfl⟩, rfl, List.prefix_refl _⟩

theorem trans (h : Onward s s') (h' : Onward s' s'') : Onward s s'' where
  tree := h.tree.trans h'.tree
  applied_le := h.applied_le.trans h'.applied_le
  idle := by
    have := h.idle
    have := h'.idle
    have := h.applied_le
    have := h'.applied_le
    have := h.tree.revision_le
    have := h'.tree.revision_le
    omega
  disabled := h'.disabled.trans h.disabled
  events := h.events.trans h'.events

theorem grown (h : Onward s s') (ha : s'.applied = s.applied) : s.tree.Grown s'.tree :=
  h.tree.grown (h.idle.mp ha)

theorem attached (h : Onward s s') (hs : s.tree.Linked) (ha : s'.applied = s.applied)
    (hn : s.tree.isAttached n = true) : s'.tree.isAttached n = true :=
  ((h.grown ha).attached_iff hs h.tree.linked).mpr hn

end Onward

section

variable {I : SyntaxTree → Prop} {c : Setting} {r : Rule} {n : NodeId} {s s' : State}

theorem invoke_eq_of_idle (hv : ∃ b, (tried c r n s).value = .ok b)
    (h : (tried c r n s).tree.revision = s.tree.revision) :
    invoke c r n s = (.noMatch, s.idled (tried c r n s)) := by
  obtain ⟨b, hb⟩ := hv
  rw [tried] at hb h
  simp only [invoke, hb, if_pos h]
  rfl

theorem invoke_eq_of_change (hv : ∃ b, (tried c r n s).value = .ok b)
    (h : (tried c r n s).tree.revision ≠ s.tree.revision) :
    invoke c r n s = (.applied, s.changed (tried c r n s) (appliedEvent c r n s)) := by
  obtain ⟨b, hb⟩ := hv
  rw [tried] at hb h
  simp only [invoke, hb, if_neg h]
  rfl

variable (hc : Tame I c.rules c.resolver)
include hc

theorem Turn.kept (h : Turn c s s') (hs : I s.tree) : I s'.tree ∧ Onward s s' := by
  cases h with
  | @idle r n hr hn ha h =>
    have ht := Edit.runFrom_edited (hc.linked hs) ⟨c.resolver, r.id, c.pass⟩ (r.act n) s.events
    exact ⟨hc.kept hr hs hn ha _ rfl _, ht, le_refl _, ⟨fun _ => h, fun _ => rfl⟩, rfl,
      Edit.prefix_runFrom _ _ _ _⟩
  | @change r n hr hn ha h =>
    have ht := Edit.runFrom_edited (hc.linked hs) ⟨c.resolver, r.id, c.pass⟩ (r.act n) s.events
    exact ⟨hc.kept hr hs hn ha _ rfl _, ht, Nat.le_succ _,
      ⟨fun he => absurd he (Nat.succ_ne_self _), fun he => absurd he h⟩, rfl,
      (Edit.prefix_runFrom _ _ _ _).trans (List.prefix_append _ _)⟩
  | capped hr => exact ⟨hs, .refl (hc.linked hs), le_refl _, ⟨fun _ => rfl, fun _ => rfl⟩, rfl,
      List.prefix_append _ _⟩

theorem Turns.kept (h : Turns c s s') (hs : I s.tree) : I s'.tree ∧ Onward s s' := by
  induction h with
  | refl => exact ⟨hs, .refl (hc.linked hs)⟩
  | tail _ hturn ih =>
    have h := hturn.kept hc ih.1
    exact ⟨h.1, ih.2.trans h.2⟩

theorem offer_turns (hr : r ∈ c.rules) (i left attempts : Nat) (hs : I s.tree)
    (hn : s.tree.isAttached n = true) : Turns c s (offer c r i left attempts n s).2 ∧
    ∀ m, (offer c r i left attempts n s).1 = some m →
      (offer c r i left attempts n s).2.tree.isAttached m = true := by
  induction left generalizing attempts n s with
  | zero => exact ⟨.refl, fun m hm => Option.some.inj hm ▸ hn⟩
  | succ left ih =>
    rw [offer]
    by_cases ha : r.granularity.admits (s.tree.kind n).category = true
    · have hv := hc.whole hr hs hn ha ⟨c.resolver, r.id, c.pass⟩ rfl s.events
      by_cases h : (tried c r n s).tree.revision = s.tree.revision
      · have hturn := Turn.idle hr hn ha h
        simp only [ha, invoke_eq_of_idle hv h]
        refine ⟨.single hturn, ?_⟩
        intro m hm
        obtain rfl := Option.some.inj hm
        exact (hturn.kept hc hs).2.attached (hc.linked hs) rfl hn
      · have hturn := Turn.change hr hn ha h
        simp only [ha, invoke_eq_of_change hv h]
        have hk := (hturn.kept hc hs).1
        generalize s.changed (tried c r n s) (appliedEvent c r n s) = s₁ at hturn hk
        simp only [Bool.not_true, Bool.false_eq_true, if_false]
        split
        · exact ⟨.single hturn, nofun⟩
        next m hm =>
          have hma : s₁.tree.isAttached m = true := by
            rw [follow, Option.filter_eq_some_iff] at hm
            exact hm.2
          split
          · exact ⟨.single hturn, fun k hk => Option.some.inj hk ▸ hma⟩
          · split
            · exact ⟨.tail (.single hturn) (.capped hr), fun k hk => Option.some.inj hk ▸ hma⟩
            · have h := ih (attempts + 1) hk hma
              exact ⟨.head hturn h.1, h.2⟩
    · simp only [ha]
      exact ⟨.refl, fun m hm => Option.some.inj hm ▸ hn⟩

theorem offerAll_turns (i : Nat) {rules : List Rule} (hr : ∀ r ∈ rules, r ∈ c.rules) (hs : I s.tree)
    (hn : s.tree.isAttached n = true) : Turns c s (offerAll c i rules n s).2 ∧
    ∀ m, (offerAll c i rules n s).1 = some m →
      (offerAll c i rules n s).2.tree.isAttached m = true := by
  induction rules generalizing i n s with
  | nil => exact ⟨.refl, fun m hm => Option.some.inj hm ▸ hn⟩
  | cons r rules ih =>
    obtain ⟨hr₁, hr₂⟩ := List.forall_mem_cons.mp hr
    rw [offerAll]
    split
    · exact ih (i + 1) hr₂ hs hn
    · have ho := offer_turns hc hr₁ i (max c.limits.retryCap 1) 0 hs hn
      split
      next s₁ he =>
        rw [he] at ho
        exact ⟨ho.1, nofun⟩
      next m s₁ he =>
        rw [he] at ho
        have h := ih (i + 1) hr₂ (ho.1.kept hc hs).1 (ho.2 m rfl)
        exact ⟨ho.1.trans h.1, h.2⟩

theorem visit_turns {fuel : Nat} {work : List NodeId} (hs : I s.tree)
    (h : visit c fuel work s = some s') : Turns c s s' := by
  induction fuel generalizing work s with
  | zero =>
    cases work with
    | nil => exact Option.some.inj h ▸ .refl
    | cons n work => cases h
  | succ fuel ih =>
    cases work with
    | nil => exact Option.some.inj h ▸ .refl
    | cons n work =>
      rw [visit] at h
      split at h
      · exact ih hs h
      next hn =>
        have ho := offerAll_turns hc 0 (fun r hr => hr) hs (by simpa using hn)
        split at h
        next s₁ he =>
          rw [he] at ho
          exact ho.1.trans (ih (ho.1.kept hc hs).1 h)
        next m s₁ he =>
          rw [he] at ho
          exact ho.1.trans (ih (ho.1.kept hc hs).1 h)

/-- What comes after the first node of the worklist was offered. -/
theorem turns_of_visit {fuel : Nat} {work : List NodeId} (hs : I s.tree)
    (hn : s.tree.isAttached n = true) (h : visit c (fuel + 1) (n :: work) s = some s') :
    Turns c (offerAll c 0 c.rules n s).2 s' := by
  have ho := (offerAll_turns hc 0 (fun r hr => hr) hs hn).1.kept hc hs
  rw [visit, if_neg (by simp [hn])] at h
  split at h
  next s₁ he =>
    rw [he] at ho ⊢
    exact visit_turns hc ho.1 h
  next m s₁ he =>
    rw [he] at ho ⊢
    exact visit_turns hc ho.1 h

/-- A pass starts to count anew. -/
theorem pass_turns {fuel : Nat} (hs : I s.tree) (h : pass c fuel s = some s') :
    Turns c { s with applied := 0 } s' := by
  rw [pass] at h
  split at h
  · exact Option.some.inj h ▸ .refl
  · exact visit_turns hc hs h

end

end Session

end TreeTidy
