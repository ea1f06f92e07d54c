import Mathlib.Data.List.Forall2
import TreeTidy.Proofs.Engine.Provenance
/-!
Names in order. Sets of names are kept as lists that increase; what is done with each member of a list
comes out for all of them, or fails at the first that fails.
-/
namespace TreeTidy

section Each

variable {ε α β : Type} {f : α → Except ε β} {as : List α} {bs : List β} {e : ε}

theorem mapM_eq_ok : as.mapM f = .ok bs ↔ List.Forall₂ (fun a b => f a = .ok b) as bs := by
  induction as generalizing bs with
  | nil =>
    rw [List.forall₂_nil_left_iff, List.mapM_nil, pure, Applicative.toPure, Monad.toApplicative]
    exact ⟨fun h => (Except.ok.inj h).symm, fun h => h ▸ rfl⟩
  | cons a as ih =>
    simp only [List.mapM_cons, bind, except_bind_eq_ok, pure, Except.pure, Except.ok.injEq, ih,
      List.forall₂_cons_left_iff]
    constructor
    · rintro ⟨b, hb, bs, hbs, rfl⟩
      exact ⟨b, bs, hb, hbs, rfl⟩
    · rintro ⟨b, bs, hb, hbs, rfl⟩
      exact ⟨b, hb, bs, hbs, rfl⟩

/-- What comes out for a list comes out for each member. -/
theorem ok_of_mapM_eq_ok (h : as.mapM f = .ok bs) : ∀ a ∈ as, ∃ b ∈ bs, f a = .ok b := by
  replace h := mapM_eq_ok.mp h
  induction h with
  | nil => exact nofun
  | @cons a b as bs hab _ ih =>
    exact List.forall_mem_cons.mpr
      ⟨⟨b, .head _, hab⟩, fun a ha => (ih a ha).imp fun _ hb => ⟨.tail _ hb.1, hb.2⟩⟩

theorem mapM_eq_error : as.mapM f = .error e ↔ ∃ front a back, as = front ++ a :: back ∧
    (∀ a ∈ front, ∃ b, f a = .ok b) ∧ f a = .error e := by
  induction as with
  | nil => exact ⟨nofun, fun ⟨front, a, back, h, _⟩ => by simp at h⟩
  | cons a as ih =>
    rw [List.mapM_cons]
    cases ha : f a with
    | error e' =>
      constructor
      · intro h
        cases h
        exact ⟨[], a, as, rfl, nofun, ha⟩
      · rintro ⟨front, a', back, hsplit, hfront, he⟩
        cases front with
        | nil =>
          cases hsplit
          exact congrArg Except.error (Except.error.inj (ha.symm.trans he))
        | cons x front =>
          cases hsplit
          obtain ⟨b, hb⟩ := hfront a (.head _)
          rw [ha] at hb
          cases hb
    | ok b =>
      have hrest : ((Except.ok b : Except ε β).bind fun b => (as.mapM f).bind fun bs =>
          Except.ok (b :: bs)) = .error e ↔ as.mapM f = .error e := by
        cases as.mapM f <;> simp [Except.bind]
      refine hrest.trans (ih.trans ⟨?_, ?_⟩)
      · rintro ⟨front, a', back, rfl, hfront, he⟩
        exact ⟨a :: front, a', back, rfl, List.forall_mem_cons.mpr ⟨⟨b, ha⟩, hfront⟩, he⟩
      · rintro ⟨front, a', back, hsplit, hfront, he⟩
        cases front with
        | nil =>
          cases hsplit
          rw [ha] at he
          cases he
        | cons x front =>
          cases hsplit
          exact ⟨front, a', back, rfl, (List.forall_mem_cons.mp hfront).2, he⟩

theorem exists_mapM_eq_ok : (∃ bs, as.mapM f = .ok bs) ↔ ∀ a ∈ as, ∃ b, f a = .ok b := by
  constructor
  · rintro ⟨bs, h⟩ a ha
    obtain ⟨b, -, hb⟩ := ok_of_mapM_eq_ok h a ha
    exact ⟨b, hb⟩
  · intro h
    cases hm : as.mapM f with
    | ok bs => exact ⟨bs, rfl⟩
    | error e =>
      obtain ⟨front, a, back, rfl, -, he⟩ := mapM_eq_error.mp hm
      obtain ⟨b, hb⟩ := h a (List.mem_append_right _ (.head _))
      rw [hb] at he
      cases he

end Each

theorem map_eq_of_forall₂ {α β γ : Type} {f : α → γ} {g : β → γ} {as : List α} {bs : List β}
    (h : List.Forall₂ (fun a b => f a = g b) as bs) : as.map f = bs.map g := by
  rw [← List.forall₂_eq_eq_eq, List.forall₂_map_left_iff, List.forall₂_map_right_iff]
  exact h

section Order

variable {α : Type} [BEq α] [LawfulBEq α]

omit [LawfulBEq α] in
theorem eraseDups_sublist (l : List α) : l.eraseDups.Sublist l := by
  induction hk : l.length using Nat.strongRecOn generalizing l with
  | _ k ih =>
    cases l with
    | nil => exact .slnil
    | cons a l =>
      have hlt : (l.filter fun b => !b == a).length < k :=
        hk ▸ Nat.lt_succ_of_le (List.length_filter_le _ l)
      rw [List.eraseDups_cons]
      exact .cons_cons a ((ih _ hlt _ rfl).trans List.filter_sublist)

theorem nodup_eraseDups (l : List α) : l.eraseDups.Nodup := by
  induction hk : l.length using Nat.strongRecOn generalizing l with
  | _ k ih =>
    cases l with
    | nil => exact List.nodup_nil
    | cons a l =>
      have hlt : (l.filter fun b => !b == a).length < k :=
        hk ▸ Nat.lt_succ_of_le (List.length_filter_le _ l)
      rw [List.eraseDups_cons]
      exact List.nodup_cons.mpr ⟨by simp, ih _ hlt _ rfl⟩

/-- Sorted, and with each member once, a list increases. -/
theorem pairwise_lt_eraseDups_mergeSort (le lt : α → α → Prop) [DecidableRel le]
    (htrans : ∀ a b c, le a b → le b c → le a c) (htotal : ∀ a b, le a b ∨ le b a)
    (hlt : ∀ a b, le a b → a ≠ b → lt a b) (l : List α) :
    ((l.mergeSort fun a b => decide (le a b)).eraseDups).Pairwise lt := by
  have hsorted : (l.mergeSort fun a b => decide (le a b)).Pairwise fun a b => decide (le a b) := by
    apply List.pairwise_mergeSort
    · exact fun a b c => by simpa using htrans a b c
    · exact fun a b => by simpa using htotal a b
  refine ((hsorted.sublist (eraseDups_sublist _)).and (nodup_eraseDups _)).imp ?_
  rintro a b ⟨hab, hne⟩
  exact hlt a b (of_decide_eq_true hab) hne

end Order

end TreeTidy
