import TreeTidy.Proofs.Tree.Holes
import TreeTidy.Proofs.Tree.Revision
/-!
What becomes of the nodes of a tree. A node that was attached leaves the tree only by dying, and
what is dead stays dead; so a node that is not attached any more never is again.
-/
namespace TreeTidy.SyntaxTree

variable {t u v : SyntaxTree} {c m n p q : NodeId} {old new : NodeId}

/-- A later state of a tree, as its nodes see it. -/
structure Lives (t u : SyntaxTree) : Prop where
  size : t.size ≤ u.size
  alive : ∀ {n}, n < t.size → u.isAlive n = true → t.isAlive n = true
  attached : ∀ {n}, t.isAttached n = true → u.isAttached n = true ∨ u.isAlive n = false

/-- Only the root and the children matter to what is attached. -/
theorem Linked.attached_congr (hu : u.Linked) (hv : v.Linked) (hr : v.root = u.root)
    (hc : ∀ m, v.children m = u.children m) : v.isAttached n = true ↔ u.isAttached n = true := by
  have hwithin : v.Within = u.Within := by
    have hchild : v.Child = u.Child := by
      funext c p
      rw [Child, hc, Child]
    exact congrArg Relation.ReflTransGen hchild
  rw [hu.isAttached_iff, hv.isAttached_iff, hr, hwithin]

theorem children_succeed {s : Option NodeId → Option NodeId} (m : NodeId) :
    (u.update n fun d => { d with successor := s d.successor }).children m = u.children m := by
  rw [children, node_update]
  split <;> rfl

theorem Linked.succeed (hu : u.Linked) (n : NodeId) (s : Option NodeId → Option NodeId) :
    (u.update n fun d => { d with successor := s d.successor }).Linked := by
  refine hu.update ?_ ?_ ?_ n <;> exact fun _ => rfl

namespace Lives

theorem refl (t : SyntaxTree) : t.Lives t := ⟨le_refl _, fun _ h => h, .inl⟩

theorem dead (h : t.Lives u) (hn : n < t.size) (hd : t.isAlive n = false) : u.isAlive n = false := by
  rw [← Bool.not_eq_true] at hd ⊢
  exact fun ha => hd (h.alive hn ha)

theorem trans (h : t.Lives u) (h' : u.Lives v) : t.Lives v where
  size := h.size.trans h'.size
  alive hn ha := h.alive hn (h'.alive (lt_of_lt_of_le hn h.size) ha)
  attached {n} hn := by
    obtain ha | hd := h.attached hn
    · exact h'.attached ha
    · have hlt : n < u.size := lt_of_lt_of_le (lt_of_alive (attached_alive hn)) h.size
      exact .inr (h'.dead hlt hd)

theorem of_grown (h : t.Grown u) (ht : t.Linked) (hu : u.Linked) : t.Lives u where
  size := h.size
  alive hn ha := by rwa [h.isAlive hn] at ha
  attached hn := .inl ((h.attached_iff ht hu).mpr hn)

/-- Only lives and children matter. -/
theorem congr (h : t.Lives u) (hu : u.Linked) (hv : v.Linked) (hs : v.size = u.size)
    (hr : v.root = u.root) (ha : ∀ m, v.isAlive m = u.isAlive m)
    (hc : ∀ m, v.children m = u.children m) : t.Lives v := by
  refine ⟨hs ▸ h.size, fun hn hv => h.alive hn (by rwa [← ha]), fun {n} hn => ?_⟩
  obtain hn | hn := h.attached hn
  · exact .inl ((hu.attached_congr hv hr hc).mpr hn)
  · exact .inr ((ha n).trans hn)

theorem bump (h : t.Lives u) (hu : u.Linked) : t.Lives u.bump :=
  h.congr hu hu.bump rfl rfl (fun _ => rfl) fun _ => rfl

theorem succeed (h : t.Lives u) (hu : u.Linked) (s : Option NodeId → Option NodeId) :
    t.Lives (u.update n fun d => { d with successor := s d.successor }).bump := by
  refine (h.congr hu (hu.succeed n s) size_update root_update ?_ children_succeed).bump (hu.succeed n s)
  intro m
  rw [isAlive, node_update]
  split <;> rfl

end Lives

section Exchange

variable {outs ins moved kept : List NodeId} {slots : List (Option NodeId)} {list : List NodeId}
  (h : t.Exchange p slots list moved outs ins kept) (ht : t.Linked)
include h ht

/-- The place and what is above it stay attached. -/
theorem Exchange.attached_above (hm : t.isAttached m = true) (hp : t.Within p m) :
    (t.exchange p slots list moved outs ins).isAttached m = true := by
  obtain ⟨r, hr, hw⟩ := ht.isAttached_iff.mp hm
  induction hw using Relation.ReflTransGen.head_induction_on with
  | refl => exact h.linked.attached_root (h.marks.2.1.trans hr)
  | @head c q hc hq ih =>
    have hqa : t.isAttached q = true := ht.isAttached_iff.mpr ⟨r, hr, hq⟩
    have hqp : q ≠ p := fun he => ht.below_irrefl q (Within.below (he ▸ hp) hc)
    have hi : c ∉ ins := fun hx =>
      ((h.reusable c hx).apart ht h.attached fun r hr => h.out_child hr).1 hp
    exact h.linked.attached_child (ih hqa (hp.tail hc))
      (h.child_of_ne ht hqp (attached_alive hqa) hc hi)

/-- A node that is attached before an exchange is attached afterwards, or has died in it. -/
theorem Exchange.attached_or_dead (hm : t.isAttached m = true) :
    (t.exchange p slots list moved outs ins).isAttached m = true ∨
      (t.exchange p slots list moved outs ins).isAlive m = false := by
  have hplace := h.attached_above ht h.attached .refl
  obtain ⟨r, hr, hw⟩ := ht.isAttached_iff.mp hm
  induction hw using Relation.ReflTransGen.head_induction_on with
  | refl => exact .inl (h.linked.attached_root (h.marks.2.1.trans hr))
  | @head c q hc hq ih =>
    have hqa : t.isAttached q = true := ht.isAttached_iff.mpr ⟨r, hr, hq⟩
    by_cases hi : c ∈ ins
    · exact .inl (h.linked.attached_child hplace (h.child_place.mpr (.inl hi)))
    by_cases hqp : q = p
    · subst hqp
      obtain ho | hk := List.mem_append.mp (h.children_perm.mem_iff.mp hc)
      · exact .inr (h.out_dead ho)
      · exact .inl (h.linked.attached_child hplace (h.child_place.mpr (.inr hk)))
    · have hcv := h.child_of_ne ht hqp (attached_alive hqa) hc hi
      obtain ha | hd := ih hqa
      · exact .inl (h.linked.attached_child ha hcv)
      · exact .inr ((h.linked.child hcv).2.trans hd)

end Exchange

section Changes

variable (ht : t.Linked)
include ht

theorem Linked.lives_exchange {outs ins moved kept : List NodeId} {slots : List (Option NodeId)}
    {list : List NodeId} (h : t.Exchange p slots list moved outs ins kept) :
    t.Lives (t.exchange p slots list moved outs ins) where
  size := h.marks.1.ge
  alive _ ha := h.alive_before ha
  attached ha := h.attached_or_dead ht ha

theorem Linked.below_unlink (h : t.Within m n) : (t.unlink n).Within m n := by
  induction h using Relation.ReflTransGen.head_induction_on with
  | refl => exact .refl
  | @head c q hc hq ih =>
    have hcn : c ≠ n := by
      rintro rfl
      exact ht.below_irrefl c (Relation.TransGen.head' hc hq)
    exact ih.head ((child_unlink ht).mpr ⟨hc, fun _ => hcn⟩)

/-- When the root is replaced, what is attached is in the new root or dies. -/
theorem Linked.lives_root (hroot : t.root = some old) (hr : t.Reusable [old] new) :
    t.Lives (((t.unlink new).withRoot new).destroy old) ∧
      (((t.unlink new).withRoot new).destroy old).Linked := by
  have hl := (ht.unlink new).withRoot (detached_unlink ht hr.alive (hr.not_root ht))
  have hv : (((t.unlink new).withRoot new).destroy old).Linked := by
    refine hl.destroy ?_ ?_
    · rw [parent?, node_withRoot, ← parent?, parent_unlink ht, (ht.root hroot).2, ite_self]
    · rintro h
      cases h
      exact hr.ne ht (ht.attached_root hroot) rfl
  refine ⟨⟨?_, fun {n} _ ha => ?_, fun {n} hn => ?_⟩, hv⟩
  · rw [size_destroy, size_withRoot, (marks_unlink t new).1]
  · rw [isAlive, node_destroy] at ha
    split at ha
    · cases ha
    · rwa [node_withRoot, ← isAlive, isAlive_unlink ht] at ha
  · by_cases hw : t.Within n new
    · have hchild : ∀ c p, (t.unlink new).Child c p →
          (((t.unlink new).withRoot new).destroy old).Child c p := by
        intro c p hc
        rwa [Child, children_destroy]
      have hnew := Relation.ReflTransGen.mono hchild n new (ht.below_unlink hw)
      exact .inl (hv.isAttached_iff.mpr ⟨new, root_destroy.trans rfl, hnew⟩)
    · have hold : t.Within n old := by
        obtain ⟨r, hr, hn⟩ := ht.isAttached_iff.mp hn
        cases hroot.symm.trans hr
        exact hn
      have hmem : n ∈ ((t.unlink new).withRoot new).descendants old :=
        hl.mem_descendants.mpr (within_unlink ht hold hw)
      right
      rw [isAlive, node_destroy, if_pos hmem]

theorem Linked.lives_appliedTo? {c : Change} (h : c.appliedTo? t = some u) : t.Lives u := by
  cases c with
  | replace old new =>
    obtain ⟨-, ho, hr, ⟨hroot, -, rfl⟩ | ⟨p, pos, hp, hat, -, rfl⟩⟩ := ht.replace?_cases h
    · obtain ⟨hv, hl⟩ := ht.lives_root hroot hr
      exact hv.succeed hl fun _ => some new
    · have hx := ht.exchange_replace ho hp hat hr
      exact (ht.lives_exchange hx).succeed hx.linked fun _ => some new
  | remove n =>
    obtain ⟨ho, p, pos, hp, hat, -, rfl⟩ := ht.remove?_cases h
    have hx := ht.exchange_remove ho hp hat
    exact (ht.lives_exchange hx).bump hx.linked
  | insertBefore anchor new =>
    obtain ⟨ha, hd, p, i, hp, hi, -, rfl⟩ := ht.insertAt?_cases h (Nat.zero_le 1)
    have hx := ht.exchange_insert ha hd hp hi (Nat.zero_le 1)
    exact (ht.lives_exchange hx).bump hx.linked
  | insertAfter anchor new =>
    obtain ⟨ha, hd, p, i, hp, hi, -, rfl⟩ := ht.insertAt?_cases h (le_refl 1)
    have hx := ht.exchange_insert ha hd hp hi (le_refl 1)
    exact (ht.lives_exchange hx).bump hx.linked
  | splice first count news =>
    obtain ⟨-, ha, p, i, spec, hp, -, -, -, -, hn, hr, rfl⟩ := ht.splice?_cases h
    have hx := ht.exchange_splice ha hp hn fun n hn => (hr n hn).2.1
    exact (ht.lives_exchange hx).succeed hx.linked fun s => news.head?.or s

end Changes

end TreeTidy.SyntaxTree

namespace TreeTidy

open SyntaxTree

/-- A program lets nodes live and die in the same way, broken off or not. -/
theorem Edit.runFrom_lives {α : Type} {t : SyntaxTree} (ht : t.Linked) (x : Setting) (e : Edit α)
    (es : List Event) : t.Lives (e.runFrom x t es).tree := by
  induction e generalizing t es with
  | done a => exact .refl t
  | broken m => exact .refl t
  | look next ih => exact ih _ ht es
  | create spec next ih =>
    simp only [runFrom]
    cases h : t.create? spec with
    | ok made =>
      have hc := ht.create? h
      exact (Lives.of_grown hc.grown ht hc.linked).trans (ih _ hc.linked es)
    | error e => exact ih _ ht es
  | clone n next ih =>
    have hc := ht.clone n
    exact (Lives.of_grown hc.kept.grown ht hc.linked).trans (ih _ hc.linked es)
  | change c next ih =>
    simp only [runFrom]
    cases h : c.appliedTo? t with
    | some u => exact (ht.lives_appliedTo? h).trans (ih _ (ht.appliedTo? h) es)
    | none => exact ih _ ht _

end TreeTidy

/-!
What a node is never changes: nodes are made with a kind, and whatever is made of the tree afterwards, they
keep it, dead or alive.
-/
namespace TreeTidy

namespace SyntaxTree

variable {t u v : SyntaxTree} {n old new : NodeId}

/-- Every node of the first tree is what it was in the second one. -/
def KeepsKinds (t u : SyntaxTree) : Prop := ∀ m < t.size, u.kind m = t.kind m

namespace KeepsKinds

theorem refl (t : SyntaxTree) : t.KeepsKinds t := fun _ _ => rfl

theorem trans (h : t.KeepsKinds u) (h' : u.KeepsKinds v) (hs : t.size ≤ u.size) : t.KeepsKinds v :=
  fun m hm => (h' m (hm.trans_le hs)).trans (h m hm)

theorem of_grown (h : t.Grown u) : t.KeepsKinds u := by
  intro m hm
  rw [kind, h.node hm]
  rfl

theorem bump (h : t.KeepsKinds u) : t.KeepsKinds u.bump := h

theorem succeed (h : t.KeepsKinds u) (s : Option NodeId → Option NodeId) :
    t.KeepsKinds (u.update n fun d => { d with successor := s d.successor }).bump := by
  intro m hm
  rw [← h m hm, kind, node_bump, node_update]
  split <;> rfl

end KeepsKinds

theorem Exchange.keepsKinds {p : NodeId} {outs ins moved kept list : List NodeId}
    {slots : List (Option NodeId)} (h : t.Exchange p slots list moved outs ins kept) :
    t.KeepsKinds (t.exchange p slots list moved outs ins) := fun m _ => h.kind m

theorem Linked.keepsKinds_appliedTo? (ht : t.Linked) {c : Change} (h : c.appliedTo? t = some u) :
    t.KeepsKinds u := by
  cases c with
  | replace old new =>
    obtain ⟨-, ho, hr, ⟨-, -, rfl⟩ | ⟨p, pos, hp, hat, -, rfl⟩⟩ := ht.replace?_cases h
    · have hroot : t.KeepsKinds (((t.unlink new).withRoot new).destroy old) := by
        intro m _
        rw [← kind_unlink ht m, kind, node_destroy]
        split <;> rfl
      exact hroot.succeed fun _ => some new
    · exact (ht.exchange_replace ho hp hat hr).keepsKinds.succeed fun _ => some new
  | remove n =>
    obtain ⟨ho, p, pos, hp, hat, -, rfl⟩ := ht.remove?_cases h
    exact (ht.exchange_remove ho hp hat).keepsKinds.bump
  | insertBefore anchor new =>
    obtain ⟨ha, hd, p, i, hp, hi, -, rfl⟩ := ht.insertAt?_cases h (Nat.zero_le 1)
    exact (ht.exchange_insert ha hd hp hi (Nat.zero_le 1)).keepsKinds.bump
  | insertAfter anchor new =>
    obtain ⟨ha, hd, p, i, hp, hi, -, rfl⟩ := ht.insertAt?_cases h (le_refl 1)
    exact (ht.exchange_insert ha hd hp hi (le_refl 1)).keepsKinds.bump
  | splice first count news =>
    obtain ⟨-, ha, p, i, spec, hp, -, -, -, -, hn, hr, rfl⟩ := ht.splice?_cases h
    have hx := ht.exchange_splice ha hp hn fun n hn => (hr n hn).2.1
    exact hx.keepsKinds.succeed fun s => news.head?.or s

end SyntaxTree

open SyntaxTree

/-- A program changes no node into one of another kind, broken off or not. -/
theorem Edit.runFrom_keepsKinds {α : Type} {t : SyntaxTree} (ht : t.Linked) (x : Setting) (e : Edit α)
    (es : List Event) : t.KeepsKinds (e.runFrom x t es).tree := by
  induction e generalizing t es with
  | done a => exact .refl t
  | broken m => exact .refl t
  | look next ih => exact ih _ ht es
  | create spec next ih =>
    simp only [runFrom]
    cases h : t.create? spec with
    | ok made =>
      have hc := ht.create? h
      exact (KeepsKinds.of_grown hc.grown).trans (ih _ hc.linked es) hc.grown.size
    | error e => exact ih _ ht es
  | clone n next ih =>
    have hc := ht.clone n
    exact (KeepsKinds.of_grown hc.kept.grown).trans (ih _ hc.linked es) hc.kept.grown.size
  | change c next ih =>
    simp only [runFrom]
    cases h : c.appliedTo? t with
    | some u =>
      exact (ht.keepsKinds_appliedTo? h).trans (ih _ (ht.appliedTo? h) es) (ht.lives_appliedTo? h).size
    | none => exact ih _ ht _

end TreeTidy
