import Mathlib.Algebra.Order.BigOperators.Group.Finset
import TreeTidy.Proofs.Engine.Agenda
import TreeTidy.Proofs.Engine.Calls
import TreeTidy.Proofs.Engine.Visits
/-!
How often a tree can be changed. A node is attached once and dies once, and every change does one or the other
to some node. So as long as no more than a certain number of nodes are made, the revision of the tree does not
rise above what is left of these chances.
-/
namespace TreeTidy

namespace SyntaxTree

variable {t u v : SyntaxTree} {n : NodeId} {bound : Nat}

/-- What can still happen to a node, made or not yet: to be attached, and to die. -/
def chances (t : SyntaxTree) (n : NodeId) : Nat :=
  if t.isAttached n then 1 else if t.isAlive n ∨ t.size ≤ n then 2 else 0

/-- What can still happen in a tree that never has more than so many nodes. -/
def stock (t : SyntaxTree) (bound : Nat) : Nat := ∑ n ∈ Finset.range bound, t.chances n

theorem chances_le_two (t : SyntaxTree) (n : NodeId) : t.chances n ≤ 2 := by
  unfold chances
  split
  · exact Nat.le_succ 1
  · split <;> omega

theorem chances_attached (h : t.isAttached n = true) : t.chances n = 1 := if_pos h

theorem chances_dead (hn : n < t.size) (h : t.isAlive n = false) : t.chances n = 0 := by
  have ha : ¬ t.isAttached n = true := fun ha => by rw [attached_alive ha] at h; cases h
  rw [chances, if_neg ha, if_neg (by simp [h, hn])]

theorem Linked.chances_detached (ht : t.Linked) (h : t.isDetached n = true) : t.chances n = 2 := by
  rw [chances, ht.not_attached_of_detached h, if_neg Bool.false_ne_true,
    if_pos (.inl (isDetached_iff.mp h).1)]

/-- No node gets a chance back. -/
theorem Lives.chances_le (h : t.Lives u) (n : NodeId) : u.chances n ≤ t.chances n := by
  by_cases ha : t.isAttached n = true
  · rw [chances_attached ha]
    obtain hu | hd := h.attached ha
    · exact (chances_attached hu).le
    · rw [chances_dead ((lt_of_alive (attached_alive ha)).trans_le h.size) hd]
      exact Nat.zero_le 1
  · by_cases hl : t.isAlive n = true ∨ t.size ≤ n
    · rw [show t.chances n = 2 from (if_neg ha).trans (if_pos hl)]
      exact chances_le_two u n
    · obtain ⟨hd, hn⟩ := not_or.mp hl
      have hlt := Nat.not_le.mp hn
      rw [chances_dead (hlt.trans_le h.size) (h.dead hlt (Bool.not_eq_true _ ▸ hd))]
      exact Nat.zero_le _

/-- A later state. As often as it was changed, chances were used. -/
structure Spends (t u : SyntaxTree) : Prop where
  size : t.size ≤ u.size
  stock : ∀ {bound}, u.size ≤ bound → u.revision + u.stock bound ≤ t.revision + t.stock bound

namespace Spends

theorem refl (t : SyntaxTree) : t.Spends t := ⟨le_refl _, fun _ => le_refl _⟩

theorem trans (h : t.Spends u) (h' : u.Spends v) : t.Spends v where
  size := h.size.trans h'.size
  stock hb := (h'.stock hb).trans (h.stock (h'.size.trans hb))

theorem of_unchanged (h : t.Lives u) (hr : u.revision = t.revision) : t.Spends u where
  size := h.size
  stock _ := by
    rw [hr]
    exact Nat.add_le_add_left (Finset.sum_le_sum fun n _ => h.chances_le n) _

theorem of_chance (h : t.Lives u) (hr : u.revision = t.revision + 1) (hn : n < t.size)
    (hlt : u.chances n < t.chances n) : t.Spends u where
  size := h.size
  stock {bound} hb := by
    have hmem : n ∈ Finset.range bound := Finset.mem_range.mpr ((hn.trans_le h.size).trans_le hb)
    have hsum : u.stock bound < t.stock bound :=
      Finset.sum_lt_sum (fun m _ => h.chances_le m) ⟨n, hmem, hlt⟩
    rw [hr]
    omega

end Spends

theorem Linked.attached_bump (ht : t.Linked) (hn : t.isAttached n = true) : t.bump.isAttached n = true :=
  (ht.attached_congr ht.bump rfl fun _ => rfl).mpr hn

/-- What a change inserts, it attaches; any other change does away with the node where it is made. -/
theorem Linked.spends_appliedTo? (ht : t.Linked) {c : Change} (h : c.appliedTo? t = some u) : t.Spends u := by
  have hl := ht.lives_appliedTo? h
  have hr := ht.revision_appliedTo? h
  cases hc : c.ousts with
  | true =>
    have ha := ht.attached_site h
    have hlt := lt_of_alive (attached_alive ha)
    refine .of_chance hl hr hlt ?_
    rw [chances_dead (hlt.trans_le hl.size) (ht.ousted h hc), chances_attached ha]
    exact Nat.one_pos
  | false =>
    obtain ⟨new, hd, hu⟩ : ∃ new, t.isDetached new = true ∧ u.isAttached new = true := by
      cases c with
      | replace old new => cases hc
      | remove n => cases hc
      | splice first count news => cases hc
      | insertBefore anchor new =>
        obtain ⟨ha, hd, p, i, hp, hi, -, rfl⟩ := ht.insertAt?_cases h (Nat.zero_le 1)
        have hx := ht.exchange_insert ha hd hp hi (Nat.zero_le 1)
        exact ⟨new, hd, hx.linked.attached_bump (hx.in_attached ht (.head _))⟩
      | insertAfter anchor new =>
        obtain ⟨ha, hd, p, i, hp, hi, -, rfl⟩ := ht.insertAt?_cases h (le_refl 1)
        have hx := ht.exchange_insert ha hd hp hi (le_refl 1)
        exact ⟨new, hd, hx.linked.attached_bump (hx.in_attached ht (.head _))⟩
    refine .of_chance hl hr (lt_of_alive (isDetached_iff.mp hd).1) ?_
    rw [chances_attached hu, ht.chances_detached hd]
    exact Nat.one_lt_two

end SyntaxTree

open SyntaxTree

/-- A program uses chances as often as it changes the tree, broken off or not. -/
theorem Edit.runFrom_spends {α : Type} {t : SyntaxTree} (ht : t.Linked) (x : Setting) (e : Edit α)
    (es : List Event) : t.Spends (e.runFrom x t es).tree := by
  induction e generalizing t es with
  | done a => exact .refl t
  | broken m => exact .refl t
  | look next ih => exact ih _ ht es
  | create spec next ih =>
    simp only [runFrom]
    cases h : t.create? spec with
    | ok made =>
      have hc := ht.create? h
      exact (Spends.of_unchanged (.of_grown hc.grown ht hc.linked) hc.grown.revision).trans
        (ih _ hc.linked es)
    | error e => exact ih _ ht es
  | clone n next ih =>
    have hc := ht.clone n
    exact (Spends.of_unchanged (.of_grown hc.kept.grown ht hc.linked) hc.kept.revision).trans
      (ih _ hc.linked es)
  | change c next ih =>
    simp only [runFrom]
    cases h : c.appliedTo? t with
    | some u => exact (ht.spends_appliedTo? h).trans (ih _ (ht.appliedTo? h) es)
    | none => exact ih _ ht _

end TreeTidy

/-!
Passes end as long as there is a bound on the number of nodes that are made in them, whatever the rules are and
wherever they change the tree. A stop of the visit either changes the tree, which can be done only so often, or
leaves less to be visited.
-/
namespace TreeTidy

open SyntaxTree

theorem SyntaxTree.Grown.load {t u : SyntaxTree} (h : t.Grown u) (ht : t.Linked) {work : List NodeId}
    (hw : ∀ a ∈ work, a < t.size) : u.load work = t.load work := by
  refine congrArg List.sum (List.map_congr_left fun a ha => ?_)
  rw [h.doc ht (hw a ha)]

namespace Session

variable {c : Setting} {r : Rule} {n : NodeId} {s s' : State} {work : List NodeId} {bound : Nat}

section

variable (hs : s.tree.Linked)
include hs

theorem tried_spends (c : Setting) (r : Rule) (n : NodeId) : s.tree.Spends (tried c r n s).tree :=
  Edit.runFrom_spends hs _ _ _

theorem Try.spends (h : Try c s s') : s.tree.Spends s'.tree := by
  cases h with
  | @idle r n hr h => exact tried_spends hs c r n
  | @change r n hr h => exact tried_spends hs c r n
  | @broken r n m i hr h => exact tried_spends hs c r n
  | capped hr => exact .refl _

theorem Tries.spends (h : Tries c s s') : s.tree.Spends s'.tree := by
  induction h with
  | refl => exact .refl _
  | tail htries htry ih => exact ih.trans (htry.spends (Tries.reported htries hs).tree.linked)

/-- As long as nothing is changed, the place is that of the node. -/
theorem offerAll_stays (hn : s.tree.isAttached n = true) (i : Nat) (rules : List Rule)
    (h : (offerAll c i rules n s).2.tree.revision = s.tree.revision) :
    (offerAll c i rules n s).1 = some n := by
  let P (place : Option NodeId) (t : SyntaxTree) : Prop :=
    s.tree.Edited t ∧ (t.revision = s.tree.revision → place = some n)
  have hfollow : ∀ m t, P (some m) t → P (follow t m) t := by
    rintro m t ⟨he, hm⟩
    refine ⟨he, fun hrev => ?_⟩
    cases hm hrev
    exact follow_attached (((he.grown hrev).attached_iff hs he.linked).mpr hn)
  have hcall : ∀ x ∈ offerAllCalls c i rules n s, x.Keeps P := by
    rintro x - ⟨he, hm⟩
    have ho := tried_edited he.linked x.setting x.rule x.node
    -- a revision that has risen does not fall again
    exact ⟨he.trans ho, fun hrev => hm (le_antisymm (hrev ▸ ho.revision_le) he.revision_le)⟩
  exact (offerAll_kept hfollow i hcall ⟨.refl hs, fun _ => rfl⟩).2 h

end

theorem offerAll_size (i : Nat) {rules : List Rule} (hs : s.tree.size ≤ bound)
    (h : ∀ x ∈ offerAllCalls c i rules n s, x.outcome.tree.size ≤ bound) :
    (offerAll c i rules n s).2.tree.size ≤ bound :=
  offerAll_kept (P := fun _ t => t.size ≤ bound) (fun _ _ ht => ht) i (fun x hx _ => h x hx) hs

theorem visitCalls_step (hn : s.tree.isAttached n = true) (fuel : Nat) :
    visitCalls c (fuel + 1) (n :: work) s = offerAllCalls c 0 c.rules n s ++
      visitCalls c fuel (worklist work (offerAll c 0 c.rules n s)) (offerAll c 0 c.rules n s).2 := by
  rw [visitCalls, if_neg (by simp [hn])]
  cases offerAll c 0 c.rules n s with
  | mk place s₁ => cases place <;> rfl

/-- The nodes of a worklist were made. -/
theorem worklist_made {out : Option NodeId × State} (hl : out.2.tree.Linked)
    (hw : ∀ a ∈ work, a < out.2.tree.size) : ∀ a ∈ worklist work out, a < out.2.tree.size := by
  refine List.forall_mem_append.mpr ⟨?_, hw⟩
  cases out.1 with
  | none => exact List.forall_mem_nil _
  | some m => exact fun a ha => (hl.child ha).1

theorem visit_ends_of_bounded (hs : s.tree.Linked) (hb : s.tree.size ≤ bound)
    (hw : ∀ a ∈ work, a < s.tree.size)
    (hc : ∀ fuel, ∀ x ∈ visitCalls c fuel work s, x.outcome.tree.size ≤ bound) :
    ∃ fuel s', visit c fuel work s = some s' := by
  induction hk : s.tree.stock bound using Nat.strong_induction_on generalizing s work with
  | _ k ihk =>
    induction hl : s.tree.load work using Nat.strong_induction_on generalizing s work with
    | _ l ihl =>
      cases work with
      | nil => exact ⟨0, s, rfl⟩
      | cons n work =>
        obtain ⟨hn, hw⟩ := List.forall_mem_cons.mp hw
        by_cases ha : s.tree.isAttached n = true
        · have ht := offerAll_tries (c := c) 0 (fun r hr => hr) n s
          have hstay := offerAll_stays (c := c) hs ha 0 c.rules
          have hsplit := fun fuel => List.forall_mem_append.mp (visitCalls_step ha fuel ▸ hc (fuel + 1))
          have hb' := offerAll_size 0 hb (hsplit 0).1
          have hstep := fun fuel => visit_step (c := c) ha fuel work
          generalize offerAll c 0 c.rules n s = out at ht hstay hsplit hb' hstep
          have he := (ht.reported hs).tree
          have hspent := ht.spends hs
          have hmade := worklist_made he.linked fun a h => (hw a h).trans_le hspent.size
          have hrise := he.revision_le
          have hle := hspent.stock hb'
          have hrest := fun fuel => (hsplit fuel).2
          obtain ⟨fuel, s', h⟩ : ∃ fuel s', visit c fuel (worklist work out) out.2 = some s' := by
            obtain hlt | heq := Nat.lt_or_eq_of_le (show out.2.tree.stock bound ≤ k by omega)
            · exact ihk _ hlt he.linked hb' hmade hrest rfl
            · -- nothing was changed, and the children take the place of the node
              have hrev : out.2.tree.revision = s.tree.revision := by omega
              have hload : out.2.tree.load (worklist work out) + 1 = s.tree.load (n :: work) := by
                rw [worklist, hstay hrev, ← (he.grown hrev).load hs (List.forall_mem_cons.mpr ⟨hn, hw⟩)]
                exact he.linked.load_children
              exact ihl _ (by omega) he.linked hb' hmade hrest heq rfl
          exact ⟨fuel + 1, s', (hstep fuel).trans h⟩
        · have hskip : (!s.tree.isAttached n) = true := by simpa using ha
          have hpos := (s.tree.doc n).size_pos
          rw [load_cons] at hl
          obtain ⟨fuel, s', h⟩ := ihl _ (by omega) hs hb hw (fun fuel x hx =>
            hc (fuel + 1) x (by rwa [visitCalls, if_pos hskip])) hk rfl
          exact ⟨fuel + 1, s', by rw [visit, if_pos hskip, h]⟩

/-- The calls of a visit that comes to its end are all that are made, however much fuel there is. -/
theorem visitCalls_subset {least : Nat} (h : visit c least work s = some s') (fuel : Nat) :
    visitCalls c fuel work s ⊆ visitCalls c least work s := by
  induction fuel generalizing least work s with
  | zero => cases work <;> exact List.nil_subset _
  | succ fuel ih =>
    cases work with
    | nil => exact List.nil_subset _
    | cons n work =>
      cases least with
      | zero => cases h
      | succ least =>
        by_cases hn : s.tree.isAttached n = true
        · rw [visit_step hn] at h
          rw [visitCalls_step hn, visitCalls_step hn]
          exact List.append_subset.mpr ⟨List.subset_append_left _ _, List.subset_append_of_subset_right _ (ih h)⟩
        · have hskip : (!s.tree.isAttached n) = true := by simpa using hn
          rw [visit, if_pos hskip] at h
          rw [visitCalls, visitCalls, if_pos hskip, if_pos hskip]
          exact ih h

theorem passCalls_subset {least : Nat} (h : pass c least s = some s') (fuel : Nat) :
    passCalls c fuel s ⊆ passCalls c least s := by
  rw [pass] at h
  rw [passCalls, passCalls]
  cases hr : s.tree.root with
  | none => exact List.nil_subset _
  | some root =>
    rw [hr] at h
    exact visitCalls_subset h fuel

/-- With enough fuel, a pass comes to its end if there is a bound on the nodes that its rules make. -/
theorem pass_ends_of_bounded (hs : s.tree.Linked)
    (hc : ∀ fuel, ∀ x ∈ passCalls c fuel s, x.outcome.tree.size ≤ bound) :
    ∃ least s', ∀ fuel, least ≤ fuel → pass c fuel s = some s' := by
  cases hr : s.tree.root with
  | none => exact ⟨0, { s with applied := 0 }, fun fuel _ => by rw [pass, hr]⟩
  | some root =>
    simp only [passCalls, hr] at hc
    have hroot := lt_of_alive (hs.root hr).1
    have hbound : ∀ fuel, ∀ x ∈ visitCalls c fuel [root] { s with applied := 0 },
        x.outcome.tree.size ≤ max bound s.tree.size :=
      fun fuel x hx => (hc fuel x hx).trans (le_max_left _ _)
    obtain ⟨least, s', h⟩ := visit_ends_of_bounded (s := { s with applied := 0 }) hs (le_max_right _ _)
      (List.forall_mem_singleton.mpr hroot) hbound
    have hp : pass c least s = some s' := by
      rw [pass, hr]
      exact h
    exact ⟨least, s', fun fuel hf => pass_mono hp hf⟩

/-- A pass that ends has made so many nodes and no more. -/
theorem bounded_of_pass_ends {least : Nat} (h : pass c least s = some s') :
    ∃ bound, ∀ fuel, ∀ x ∈ passCalls c fuel s, x.outcome.tree.size ≤ bound := by
  let sizes := (passCalls c least s).map fun x => x.outcome.tree.size
  refine ⟨sizes.foldr max 0, fun fuel x hx => ?_⟩
  have hmem : x.outcome.tree.size ∈ sizes := List.mem_map_of_mem (passCalls_subset h fuel hx)
  exact List.le_max_of_le hmem (le_refl _)

end Session

end TreeTidy
