import Mathlib.Data.Fintype.Card
import Mathlib.Data.Fintype.EquivFin
import Mathlib.Data.Fintype.Sets
import Mathlib.Data.List.Lex
import Mathlib.Data.List.Perm.Subperm
import Mathlib.Data.String.Basic
import Mathlib.Logic.Relation
import TreeTidy.Engine.Schedule
import TreeTidy.Proofs.Engine.Names
/-!
Placing rules in order. Rules are all placed unless constraints go round in a circle; the order is the
least of those that keep the constraints, and the rules on circles are those that follow themselves.
-/
namespace TreeTidy.Schedule

open Relation (TransGen)

variable {es : List Precedence} {ids waiting : List String} {a b id : String} {fuel : Nat}

/-- A constraint leads from one rule to another. -/
def Leads (es : List Precedence) (a b : String) : Prop := ⟨a, b⟩ ∈ es

/-- An order of rules keeps the constraints between them. -/
def Keeps (es : List Precedence) (ids : List String) : Prop :=
  ∀ a b, Leads es a b → a ∈ ids → b ∈ ids → ids.idxOf a < ids.idxOf b

section Place

theorem keeps_cons (hid : id ∉ ids) :
    Keeps es (id :: ids) ↔ (∀ a ∈ id :: ids, ¬Leads es a id) ∧ Keeps es ids := by
  have hidx : ∀ a ∈ ids, (id :: ids).idxOf a = ids.idxOf a + 1 := by
    intro a ha
    rw [List.idxOf_cons_ne]
    rintro rfl
    exact hid ha
  constructor
  · intro h
    refine ⟨fun a ha he => ?_, fun a b he ha hb => ?_⟩
    · have hlt := h a id he ha (.head _)
      rw [List.idxOf_cons_self] at hlt
      exact Nat.not_lt_zero _ hlt
    · have hlt := h a b he (.tail _ ha) (.tail _ hb)
      rw [hidx a ha, hidx b hb] at hlt
      exact Nat.lt_of_succ_lt_succ hlt
  · rintro ⟨hfirst, hrest⟩ a b he ha hb
    rcases List.mem_cons.mp hb with rfl | hb
    · exact absurd he (hfirst a ha)
    · rw [hidx b hb]
      rcases List.mem_cons.mp ha with rfl | ha
      · rw [List.idxOf_cons_self]
        exact Nat.succ_pos _
      · rw [hidx a ha]
        exact Nat.succ_lt_succ (hrest a b he ha hb)

theorem isReady_iff : isReady es waiting id = true ↔ ∀ a ∈ waiting, ¬Leads es a id := by
  simp only [isReady, List.all_eq_true, Bool.or_eq_true, bne_iff_ne, Bool.not_eq_true',
    List.contains_eq_mem, decide_eq_false_iff_not, Leads]
  constructor
  · intro h a ha he
    exact (h _ he).elim (fun hne => hne rfl) fun hout => hout ha
  · intro h e he
    by_cases ha : e.after = id
    · exact .inr fun hin => h _ hin (ha ▸ he)
    · exact .inl ha

/-- What is placed keeps the constraints; of what is left, each rule has another one before it. -/
theorem exists_left (es : List Precedence) (hnd : waiting.Nodup) (hfuel : waiting.length ≤ fuel) :
    ∃ left,
    waiting.Perm (place es fuel waiting ++ left) ∧ Keeps es (place es fuel waiting) ∧
    ∀ b ∈ left, ∃ a ∈ left, Leads es a b := by
  induction fuel generalizing waiting with
  | zero =>
    obtain rfl := List.length_eq_zero_iff.mp (Nat.le_zero.mp hfuel)
    exact ⟨[], .refl _, nofun, nofun⟩
  | succ fuel ih =>
    rw [place]
    split
    case h_1 hnone =>
      refine ⟨waiting, .refl _, nofun, fun b hb => ?_⟩
      have hb := (isReady_iff.not.mp (List.find?_eq_none.mp hnone b hb))
      push Not at hb
      exact hb
    case h_2 id hsome =>
      have hmem := List.mem_of_find?_eq_some hsome
      have hlen : (waiting.erase id).length + 1 ≤ fuel + 1 := by
        rw [← List.length_cons (a := id), ← (List.perm_cons_erase hmem).length_eq]
        exact hfuel
      obtain ⟨left, hperm, hkeeps, hleft⟩ := ih (hnd.erase id) (Nat.le_of_succ_le_succ hlen)
      have hall : waiting.Perm (id :: (place es fuel (waiting.erase id) ++ left)) :=
        (List.perm_cons_erase hmem).trans (hperm.cons id)
      have hid : id ∉ place es fuel (waiting.erase id) := fun hin =>
        (List.nodup_cons.mp (hall.nodup_iff.mp hnd)).1 (List.mem_append_left _ hin)
      refine ⟨left, hall, (keeps_cons hid).mpr ⟨fun a ha => ?_, hkeeps⟩, hleft⟩
      have hready := isReady_iff.mp (List.find?_some hsome)
      refine hready a (hall.mem_iff.mpr ?_)
      exact (List.mem_cons.mp ha).elim (· ▸ .head _) fun ha => .tail _ (List.mem_append_left _ ha)

/-- The first member of an increasing list with a property is the least one. -/
theorem le_of_find?_eq_some {p : String → Bool} (hs : waiting.Pairwise (· < ·))
    (h : waiting.find? p = some id) (ha : a ∈ waiting) (hp : p a = true) : id ≤ a := by
  obtain ⟨-, front, back, rfl, hfront⟩ := List.find?_eq_some_iff_append.mp h
  rcases List.mem_append.mp ha with ha | ha
  · have hnot := hfront a ha
    rw [hp] at hnot
    cases hnot
  · rcases List.mem_cons.mp ha with rfl | ha
    · exact String.le_refl _
    · exact le_of_lt ((List.pairwise_cons.mp (List.pairwise_append.mp hs).2.1).1 a ha)

/-- No order of the rules that keeps the constraints is before the one in which they are placed. -/
theorem place_le (hs : waiting.Pairwise (· < ·)) (hperm : ids.Perm waiting) (hk : Keeps es ids) :
    place es fuel waiting ≤ ids := by
  induction fuel generalizing waiting ids with
  | zero => exact not_lt.mp (List.not_lt_nil ids)
  | succ fuel ih =>
    rw [place]
    split
    case h_1 => exact not_lt.mp (List.not_lt_nil ids)
    case h_2 id hsome =>
      have hnd : waiting.Nodup := hs.imp fun {_ _} hlt => ne_of_lt hlt
      cases ids with
      | nil =>
        rw [hperm.symm.eq_nil] at hsome
        cases hsome
      | cons a ids =>
        obtain ⟨hfirst, hrest⟩ := (keeps_cons (List.nodup_cons.mp (hperm.nodup_iff.mpr hnd)).1).mp hk
        have hready : isReady es waiting a = true :=
          isReady_iff.mpr fun b hb => hfirst b (hperm.mem_iff.mpr hb)
        have hle := le_of_find?_eq_some hs hsome (hperm.mem_iff.mp (.head _)) hready
        rcases lt_or_eq_of_le hle with hlt | rfl
        · exact le_of_lt (List.Lex.rel hlt)
        · refine List.cons_le_cons id (ih (hs.sublist List.erase_sublist) ?_ hrest)
          exact (List.perm_cons id).mp (hperm.trans (List.perm_cons_erase (hperm.mem_iff.mp (.head _))))

end Place

section Circles

/-- Where every rule has another one before it, there is a circle. -/
theorem exists_circle {left : List String} (hne : left ≠ [])
    (hleft : ∀ b ∈ left, ∃ a ∈ left, Leads es a b) : ∃ id, TransGen (Leads es) id id := by
  by_contra hno
  push Not at hno
  let before (a b : { id // id ∈ left }) : Prop := TransGen (Leads es) a.1 b.1
  have : IsTrans _ before := ⟨fun _ _ _ => TransGen.trans⟩
  have : Std.Irrefl before := ⟨fun a => hno a.1⟩
  obtain ⟨id, hid⟩ := List.exists_mem_of_ne_nil left hne
  -- going back from rule to rule does not end, though there are finitely many
  induction (⟨id, hid⟩ : { id // id ∈ left }) using
    (Finite.wellFounded_of_trans_of_irrefl before).induction with
  | _ b ih =>
    obtain ⟨a, ha, he⟩ := hleft b.1 b.2
    exact ih ⟨a, ha⟩ (.single he)

/-- Where all constraints are kept, there is no circle. -/
theorem not_circle (hk : Keeps es ids) (hes : ∀ a b, Leads es a b → a ∈ ids ∧ b ∈ ids) (id : String) :
    ¬TransGen (Leads es) id id := by
  have hlt : ∀ a b, TransGen (Leads es) a b → ids.idxOf a < ids.idxOf b := by
    intro a b h
    induction h with
    | single he => exact hk _ _ he (hes _ _ he).1 (hes _ _ he).2
    | tail _ he ih => exact Nat.lt_trans ih (hk _ _ he (hes _ _ he).1 (hes _ _ he).2)
  exact fun h => Nat.lt_irrefl _ (hlt id id h)

theorem mem_follow : b ∈ follow es ids ↔ b ∈ ids ∨ ∃ a ∈ ids, Leads es a b := by
  simp only [follow, List.mem_eraseDups, List.mem_append, List.mem_map, List.mem_filter,
    List.contains_iff_mem, Leads]
  refine or_congr_right ⟨?_, fun ⟨a, ha, he⟩ => ⟨_, ⟨he, ha⟩, rfl⟩⟩
  rintro ⟨e, ⟨he, ha⟩, rfl⟩
  exact ⟨_, ha, he⟩

/-- The rules that follow within some rounds. -/
def within (es : List Precedence) (id : String) (n : Nat) : List String :=
  (List.range n).foldl (fun ids _ => follow es ids)
    (((es.filter (·.before == id)).map Precedence.after).eraseDups)

theorem within_succ (n : Nat) : within es id (n + 1) = follow es (within es id n) := by
  rw [within, List.range_succ, List.foldl_append]
  rfl

theorem mem_within_zero : b ∈ within es id 0 ↔ Leads es id b := by
  simp only [within, List.range_zero, List.foldl_nil, List.mem_eraseDups, List.mem_map,
    List.mem_filter, beq_iff_eq, Leads]
  constructor
  · rintro ⟨e, ⟨he, rfl⟩, rfl⟩
    exact he
  · exact fun he => ⟨_, ⟨he, rfl⟩, rfl⟩

theorem nodup_within (n : Nat) : (within es id n).Nodup := by
  cases n with
  | zero => exact nodup_eraseDups _
  | succ n =>
    rw [within_succ]
    exact nodup_eraseDups _

theorem transGen_of_mem_within {n : Nat} (h : b ∈ within es id n) : TransGen (Leads es) id b := by
  induction n generalizing b with
  | zero => exact .single (mem_within_zero.mp h)
  | succ n ih =>
    rw [within_succ, mem_follow] at h
    rcases h with h | ⟨a, ha, he⟩
    · exact ih h
    · exact (ih ha).tail he

/-- No constraint leads out of a set of rules. -/
def Closed (es : List Precedence) (ids : List String) : Prop :=
  ∀ a ∈ ids, ∀ b, Leads es a b → b ∈ ids

theorem mem_within_of_transGen {n : Nat} (hc : Closed es (within es id n))
    (h : TransGen (Leads es) id b) : b ∈ within es id n := by
  induction h with
  | single he =>
    have hstart : ∀ n, ∀ b ∈ within es id 0, b ∈ within es id n := by
      intro n b hb
      induction n with
      | zero => exact hb
      | succ n ih =>
        rw [within_succ]
        exact mem_follow.mpr (.inl ih)
    exact hstart n _ (mem_within_zero.mpr he)
  | tail _ he ih => exact hc _ ih _ he

theorem closed_follow (hc : Closed es ids) : Closed es (follow es ids) := by
  have hids : ∀ b ∈ follow es ids, b ∈ ids := fun b hb =>
    (mem_follow.mp hb).elim id fun ⟨a, ha, he⟩ => hc a ha b he
  exact fun a ha b he => mem_follow.mpr (.inl (hc a (hids a ha) b he))

/-- As long as a constraint leads out of what follows, a round adds something. -/
theorem length_lt_length_follow (hnd : ids.Nodup) (hc : ¬Closed es ids) :
    ids.length < (follow es ids).length := by
  simp only [Closed, not_forall] at hc
  obtain ⟨a, ha, b, he, hb⟩ := hc
  refine (List.subperm_of_subset (List.nodup_cons.mpr ⟨hb, hnd⟩) ?_).length_le
  exact List.cons_subset.mpr ⟨mem_follow.mpr (.inr ⟨a, ha, he⟩), fun c hc => mem_follow.mpr (.inl hc)⟩

theorem closed_or_le_length (n : Nat) :
    Closed es (within es id n) ∨ n ≤ (within es id n).length := by
  induction n with
  | zero => exact .inr (Nat.zero_le _)
  | succ n ih =>
    rw [within_succ]
    by_cases hc : Closed es (within es id n)
    · exact .inl (closed_follow hc)
    · exact .inr (Nat.lt_of_le_of_lt (ih.resolve_left hc)
        (length_lt_length_follow (nodup_within n) hc))

/-- As many rounds as there are constraints are enough. -/
theorem closed_followers (es : List Precedence) (id : String) : Closed es (followers es id) := by
  by_contra hc
  have hle : es.length ≤ (within es id es.length).length :=
    (closed_or_le_length es.length).resolve_left hc
  have hlt := length_lt_length_follow (nodup_within es.length) hc
  have hsub : follow es (within es id es.length) ⊆ es.map Precedence.after := by
    intro b hb
    rw [← within_succ] at hb
    obtain ⟨a, -, he⟩ := TransGen.tail'_iff.mp (transGen_of_mem_within hb)
    exact List.mem_map.mpr ⟨_, he, rfl⟩
  have hlen := (List.subperm_of_subset (nodup_eraseDups _) hsub).length_le
  rw [List.length_map] at hlen
  exact Nat.lt_irrefl _ (Nat.lt_of_le_of_lt hle (Nat.lt_of_lt_of_le hlt hlen))

/-- The rules on circles are those that follow themselves. -/
theorem onCycle_iff : onCycle es id = true ↔ TransGen (Leads es) id id := by
  rw [onCycle, List.contains_iff_mem]
  exact ⟨transGen_of_mem_within, mem_within_of_transGen (closed_followers es id)⟩

end Circles

end TreeTidy.Schedule
