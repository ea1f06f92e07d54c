import TreeTidy.Proofs.Resolve.Asked
import TreeTidy.Proofs.Tree.Admitted
/-!
No question leads back to itself. The types of parts are asked for, and those of declarations that come
earlier; what declares anything but a local variable asks for its stated type only, and stated types ask
for their own parts.
-/
namespace TreeTidy

namespace NodeKind

variable {k c : NodeKind} {pos : Position} {i : Nat}

/-- Types are made of types. -/
theorem type_of_admits (hk : k.category = .type) (h : k.admits pos c = true) : c.category = .type := by
  cases k <;> try cases hk
  all_goals
    cases pos with
    | slot i =>
      obtain ⟨s, hs, ha⟩ := admits_slot.mp h
      rcases i with _ | i <;> simp [layout, Layout.fixed, Layout.many] at hs
      try (subst hs; simpa [SlotSpec.must, SlotClass.accepts] using ha)
    | list i =>
      obtain ⟨s, hs, ha⟩ := admits_list.mp h
      simp [layout, Layout.fixed, Layout.many] at hs
      try (subst hs; simpa [SlotClass.accepts] using ha)

/-- What is stated is a type. -/
theorem type_of_typeSlot (hk : k.typeSlot? = some i) (h : k.admits (.slot i) c = true) :
    c.category = .type := by
  obtain ⟨s, hs, ha⟩ := admits_slot.mp h
  cases k <;> cases hk
  all_goals
    simp [layout, Layout.fixed] at hs
    subst hs
    simpa [SlotSpec.must, SlotSpec.may, SlotClass.accepts] using ha

end NodeKind

namespace SyntaxTree

variable {t : SyntaxTree} {a c d m n p : NodeId} {pos : Position} {name : String}

namespace Linked

variable (ht : t.Linked)
include ht

theorem alive_of_asks_variable (h : t.lookupVariable? n name = some d) : t.isAlive n = true := by
  cases hp : t.parent? n with
  | some p => exact (ht.held hp).2
  | none =>
    rw [lookupVariable?, ancestors_of_root hp] at h
    cases h

theorem enclosingClass?_below (h : t.enclosingClass? n = some c) : t.isAlive n = true ∧ t.Below n c :=
  ht.mem_ancestors.mp (List.mem_of_find?_eq_some h)

/-- A declaration that is found is declared by a scope for the child of it that the name is in. -/
theorem lookupVariable?_cases (h : t.lookupVariable? n name = some d) : ∃ scope child,
    t.parent? child = some scope ∧ t.Within n child ∧ t.declaredFor? name scope child = some d := by
  rw [lookupVariable?] at h
  generalize hs : t.ancestors n = scopes at h
  induction scopes generalizing n with
  | nil => cases h
  | cons scope scopes ih =>
    cases hp : t.parent? n with
    | none =>
      rw [ancestors_of_root hp] at hs
      cases hs
    | some p =>
      rw [ht.ancestors_of_parent hp, List.cons.injEq] at hs
      obtain ⟨rfl, hs⟩ := hs
      rw [declaredOutward?] at h
      cases hd : t.declaredFor? name p n with
      | some e =>
        rw [hd] at h
        cases h
        exact ⟨p, n, hp, .refl, hd⟩
      | none =>
        rw [hd] at h
        obtain ⟨scope, child, hc, hw, he⟩ := ih hs h
        exact ⟨scope, child, hc, hw.head (ht.held hp).1, he⟩

end Linked

/-- `d` comes before its sibling `a`: as an earlier statement of a block, or as the start value of the
variable whose stated type is `a`. -/
inductive Precedes (t : SyntaxTree) (p : NodeId) : (d a : NodeId) → Prop
  | stmt {d a : NodeId} {i j : Nat} (hk : t.kind p = .block) (hd : (t.list p)[i]? = some d)
    (ha : (t.list p)[j]? = some a) (hij : i < j) : Precedes t p d a
  | start {d a : NodeId} {name : String} (hk : t.kind p = .localVar name) (hd : t.slot? p 1 = some d)
    (ha : t.slot? p 0 = some a) : Precedes t p d a

/-- `d` comes before a node that `n` is in. -/
def Earlier (t : SyntaxTree) (d n : NodeId) : Prop :=
  ∃ p a, t.parent? a = some p ∧ t.Within n a ∧ t.Precedes p d a

/-- What is found for a name was declared earlier, or is not a local variable. -/
theorem declaredFor?_cases (ht : t.Linked) (hc : t.parent? c = some p)
    (h : t.declaredFor? name p c = some d) : t.Precedes p d c ∨
      ((t.kind d).typeSlot?.isSome = true ∧ (∀ v, t.kind d ≠ .localVar v) ∧
        (d = p ∨ t.Child d p)) := by
  unfold declaredFor? at h
  split at h
  next hk =>
    split at h
    next i hpos =>
      have hd := List.mem_of_find?_eq_some h
      obtain ⟨j, hj⟩ := List.mem_iff_getElem?.mp (List.mem_reverse.mp hd)
      rw [List.getElem?_take] at hj
      split at hj
      next hlt => exact .inl (.stmt hk hj ((ht.position?_eq_some hc).mp hpos) hlt)
      next => cases hj
    next => cases h
  next hk =>
    split at h
    next =>
      cases h
      rw [hk]
      exact .inr ⟨rfl, fun _ hv => (by cases hv), .inl rfl⟩
    next => cases h
  all_goals
    first
      | cases h
      | have hd := List.find?_some h
        simp only [isParam, isField, beq_iff_eq] at hd
        rw [hd]
        exact .inr ⟨rfl, fun _ hv => (by cases hv), .inr (child_of_list (List.mem_of_find?_eq_some h))⟩

theorem Precedes.child (h : t.Precedes p d a) : t.Child d p := by
  cases h with
  | stmt _ hd => exact child_of_list (List.mem_of_getElem? hd)
  | start _ hd => exact child_of_slot hd

/-- Siblings can be numbered in the order in which they come. -/
theorem exists_number (ht : t.Linked) (p : NodeId) :
    ∃ f : NodeId → Nat, ∀ {d a}, t.Precedes p d a → f d < f a := by
  by_cases hk : t.kind p = .block
  · have hn : (t.list p).Nodup := (List.nodup_append.mp (ht.nodup p)).2.1
    have hidx : ∀ {c i}, (t.list p)[i]? = some c → (t.list p).idxOf c = i := by
      intro c i hi
      obtain ⟨hlt, rfl⟩ := List.getElem?_eq_some_iff.mp hi
      exact hn.idxOf_getElem i hlt
    refine ⟨fun c => (t.list p).idxOf c, fun {d a} h => ?_⟩
    simp only
    cases h with
    | stmt _ hd ha hij => rwa [hidx hd, hidx ha]
    | start hk' =>
      rw [hk] at hk'
      cases hk'
  · refine ⟨fun c => if t.slot? p 0 = some c then 1 else 0, fun {d a} h => ?_⟩
    simp only
    cases h with
    | stmt hk' => exact absurd hk' hk
    | start _ hd ha =>
      have hne : t.slot? p 0 ≠ some d := by
        intro h0
        have he : Position.slot 0 = .slot 1 := Node.at?_unique (ht.nodup p) h0 hd
        cases he
      rw [if_neg hne, if_pos ha]
      exact Nat.zero_lt_one

/-- The children of every living node are at places that admit them. -/
def AliveAdmitted (t : SyntaxTree) : Prop := ∀ n, t.isAlive n = true → (t.doc n).Admits

theorem Admitted.alive (ha : t.Admitted) : t.AliveAdmitted := fun n _ => ha n

section Accessible

variable (ht : t.Linked) (ha : t.AliveAdmitted)
include ht

/-- A dead node asks for its parts alone. -/
theorem acc_of_dead (hn : t.isAlive n = false) : Acc t.Asks n := by
  induction n using ht.acyclic.induction with
  | _ n ih =>
    refine ⟨n, fun c hc => ?_⟩
    have hdead : ∀ {x : Prop}, t.isAlive n = true → x := fun h => by
      rw [hn] at h
      cases h
    cases hc with
    | part _ hc => exact ih c hc ((ht.child hc).2.trans hn)
    | stated _ hc =>
      have hc := child_of_slot hc
      exact ih c hc ((ht.child hc).2.trans hn)
    | «variable» _ hc => exact hdead (ht.alive_of_asks_variable hc)
    | result _ hcls => exact hdead (ht.enclosingClass?_below hcls).1
    | start _ hp => exact hdead (ht.held hp).2

include ha

theorem admits_of_at? (hp : t.isAlive p = true) (hc : (t.node p).at? pos = some c) :
    (t.kind p).admits pos (t.kind c) = true := (ht.admits_doc.mp (ha p hp)).child hc

/-- A type whose place is not that of a local variable's asks for the types in it. -/
theorem acc_of_type (hn : (t.kind n).category = .type)
    (hp : ∀ p v, t.parent? n = some p → t.kind p ≠ .localVar v) : Acc t.Asks n := by
  induction n using ht.acyclic.induction with
  | _ n ih =>
    cases hd : t.isAlive n with
    | false => exact acc_of_dead ht hd
    | true =>
      refine ⟨n, fun c hc => ?_⟩
      cases hc with
      | part _ hc =>
        obtain ⟨pos, hpos⟩ := Node.mem_children_iff.mp hc
        have hadm := admits_of_at? ht ha hd hpos
        refine ih c hc (NodeKind.type_of_admits hn hadm) fun q v hq hv => ?_
        obtain rfl : n = q := Option.some.inj ((ht.named hc hd).symm.trans hq)
        rw [hv] at hn
        cases hn
      | stated hk =>
        have hnone : (t.kind n).typeSlot? = none := by
          cases h : t.kind n <;> rw [h] at hn <;> first | rfl | cases hn
        rw [hnone] at hk
        cases hk
      | «variable» hk | result hk =>
        rw [hk] at hn
        cases hn
      | start _ hp' hv => exact absurd hv (hp _ _ hp')

theorem acc_of_stated {i : Nat} (hk : (t.kind p).typeSlot? = some i ∨ ∃ v, t.kind p = .methodDecl v ∧ i = 1)
    (hv : ∀ v, t.kind p ≠ .localVar v) (hc : t.slot? p i = some c) : Acc t.Asks c := by
  cases hp : t.isAlive p with
  | false => exact acc_of_dead ht ((ht.child (child_of_slot hc)).2.trans hp)
  | true =>
    have hadm : (t.kind p).admits (.slot i) (t.kind c) = true := admits_of_at? ht ha hp hc
    refine acc_of_type ht ha ?_ fun q v hq => ?_
    · rcases hk with hk | ⟨v, hk, rfl⟩
      · exact NodeKind.type_of_typeSlot hk hadm
      · rw [hk] at hadm
        obtain ⟨s, hs, hacc⟩ := NodeKind.admits_slot.mp hadm
        cases hs
        simpa [SlotSpec.must, SlotClass.accepts] using hacc
    · obtain rfl : p = q := Option.some.inj ((ht.named (child_of_slot hc) hp).symm.trans hq)
      exact hv v

/-- Parameters, loop variables and fields ask for their stated types. -/
theorem acc_of_declaration (hk : (t.kind n).typeSlot?.isSome = true)
    (hv : ∀ v, t.kind n ≠ .localVar v) : Acc t.Asks n := by
  obtain ⟨i, hi⟩ := Option.isSome_iff_exists.mp hk
  refine ⟨n, fun c hc => ?_⟩
  cases hc with
  | part hk' =>
    rw [hi] at hk'
    cases hk'
  | stated hk' hc => exact acc_of_stated ht ha (.inl hk') hv hc
  | «variable» hk' | result hk' | start hk' =>
    rw [hk'] at hi
    cases hi

/-- An open type is asked for on behalf of a variable, in whose first slot it is. -/
theorem slot_of_varType (hk : t.kind n = .varType) (hp : t.parent? n = some p)
    (hv : t.kind p = .localVar name) : t.slot? p 0 = some n := by
  obtain ⟨pos, hpos⟩ := Node.mem_children_iff.mp (ht.held hp).1
  have hadm := admits_of_at? ht ha (ht.parent_alive hp) hpos
  rw [hk, hv] at hadm
  cases pos with
  | slot i =>
    rcases i with _ | _ | i
    · exact hpos
    · cases hadm
    · cases hadm
  | list i => cases hadm

/-- A node and all in it ask in the end for what was declared before. -/
theorem acc_of_earlier (hn : t.isAlive n = true) (he : ∀ d, t.Earlier d n → Acc t.Asks d) :
    ∀ m, t.Within m n → Acc t.Asks m := by
  induction n using ht.acyclic.induction with
  | _ n ih =>
    obtain ⟨f, hf⟩ := exists_number ht n
    -- the parts, in the order in which they come
    have hpart : ∀ c, t.Child c n → ∀ m, t.Within m c → Acc t.Asks m := by
      intro c
      induction hc : f c using Nat.strong_induction_on generalizing c with
      | _ k ihk =>
        intro hcn
        have hca : t.isAlive c = true := (ht.child hcn).2.trans hn
        refine ih c hcn hca ?_
        rintro d ⟨p, a, hp, hw, hprec⟩
        rcases Relation.ReflTransGen.cases_head hw with rfl | ⟨q, hq, hqa⟩
        · obtain rfl : n = p := Option.some.inj ((ht.named hcn hn).symm.trans hp)
          exact ihk (f d) (hc ▸ hf hprec) d rfl hprec.child d .refl
        · obtain rfl := ht.child_unique hq hcn hca
          exact he d ⟨p, a, hp, hqa, hprec⟩
    have hself : Acc t.Asks n := by
      refine ⟨n, fun c hc => ?_⟩
      cases hc with
      | part _ hc => exact hpart c hc c .refl
      | stated _ hc => exact hpart c (child_of_slot hc) c .refl
      | «variable» _ hc =>
        obtain ⟨scope, child, hp, hw, hd⟩ := ht.lookupVariable?_cases hc
        rcases declaredFor?_cases ht hp hd with hprec | ⟨hk, hv, -⟩
        · exact he c ⟨scope, child, hp, hw, hprec⟩
        · exact acc_of_declaration ht ha hk hv
      | result _ _ _ hname hc =>
        exact acc_of_stated ht ha (.inr ⟨_, hname, rfl⟩) (fun _ hv => by rw [hname] at hv; cases hv) hc
      | start hk hp hv hc =>
        exact he c ⟨_, n, hp, .refl, .start hv hc (slot_of_varType ht ha hk hp hv)⟩
    intro m hm
    rcases within_iff_child.mp hm with rfl | ⟨c, hc, hmc⟩
    · exact hself
    · exact hpart c hc m hmc

omit ha in
/-- The way up from a living node ends at one that has no parent. -/
theorem exists_top (hn : t.isAlive n = true) : ∃ r, t.Within n r ∧ t.isAlive r = true ∧ t.parent? r = none := by
  induction hk : t.size - Linked.depth t n using Nat.strong_induction_on generalizing n with
  | _ k ih =>
    cases hp : t.parent? n with
    | none => exact ⟨n, .refl, hn, hp⟩
    | some p =>
      have hc := (ht.held hp).1
      have hpa := ht.parent_alive hp
      have hd := ht.depth_lt_of_child hc
      have hs := ht.depth_lt_size (lt_of_alive hpa)
      obtain ⟨r, hw, hr⟩ := ih (t.size - Linked.depth t p) (by omega) hpa rfl
      exact ⟨r, hw.head hc, hr⟩

/-- No question leads back to itself. -/
theorem asks_wellFounded : WellFounded t.Asks := by
  refine ⟨fun n => ?_⟩
  cases hn : t.isAlive n with
  | false => exact acc_of_dead ht hn
  | true =>
    obtain ⟨r, hw, hr, hpr⟩ := exists_top ht hn
    refine acc_of_earlier ht ha hr ?_ n hw
    rintro d ⟨p, a, hp, hra, -⟩
    rcases Relation.ReflTransGen.cases_head hra with rfl | ⟨q, hq, -⟩
    · rw [hpr] at hp
      cases hp
    · rw [ht.parent_iff.mpr ⟨hq, hr⟩] at hpr
      cases hpr

end Accessible

section Attached

variable (ht : t.Linked)
include ht

/-- What is asked for is in or above the place of the question, so it is attached if the place is. -/
theorem Asks.attached (h : t.Asks c n) (hn : t.isAttached n = true) : t.isAttached c = true := by
  have hup : ∀ {a}, t.Below n a → t.isAttached a = true := by
    intro a hb
    obtain ⟨r, hr, hw⟩ := ht.isAttached_iff.mp hn
    rcases ht.within_total (attached_alive hn) hb.to_reflTransGen hw with h | h
    · exact ht.isAttached_iff.mpr ⟨r, hr, h⟩
    · -- nothing is above the root
      rcases Relation.ReflTransGen.cases_head h with rfl | ⟨q, hq, -⟩
      · exact ht.attached_root hr
      · have hp := ht.parent_iff.mpr ⟨hq, (ht.root hr).1⟩
        rw [(ht.root hr).2] at hp
        cases hp
  cases h with
  | part _ hc => exact ht.attached_child hn hc
  | stated _ hc => exact ht.attached_child hn (child_of_slot hc)
  | «variable» _ hc =>
    obtain ⟨scope, child, hp, hw, hd⟩ := ht.lookupVariable?_cases hc
    have hs := hup (Within.below hw (ht.held hp).1)
    rcases declaredFor?_cases ht hp hd with hprec | ⟨-, -, rfl | hc⟩
    · exact ht.attached_child hs hprec.child
    · exact hs
    · exact ht.attached_child hs hc
  | result _ hcls hm _ hc =>
    have hs := hup (ht.enclosingClass?_below hcls).2
    exact ht.attached_child (ht.attached_child hs (child_of_list hm)) (child_of_slot hc)
  | start _ hp _ hc => exact ht.attached_child (ht.attached_parent hn hp) (child_of_slot hc)

theorem Asks.lt_size (h : t.Asks c n) : c < t.size := by
  cases h with
  | part _ hc => exact (ht.child hc).1
  | stated _ hc | result _ _ _ _ hc | start _ _ _ hc => exact (ht.child (child_of_slot hc)).1
  | «variable» _ hc =>
    obtain ⟨scope, child, hp, hw, hd⟩ := ht.lookupVariable?_cases hc
    rcases declaredFor?_cases ht hp hd with hprec | ⟨-, -, rfl | hc⟩
    · exact (ht.child hprec.child).1
    · exact lt_of_alive (ht.parent_alive hp)
    · exact (ht.child hc).1

end Attached

end SyntaxTree

end TreeTidy
