import Mathlib.Data.List.Nodup
import Mathlib.Data.List.Pairwise
import Mathlib.Data.List.Permutation
import Mathlib.Data.List.Sort
import Mathlib.Data.String.Basic
import TreeTidy.Engine.Schedule
import TreeTidy.Proofs.Engine.Names
import TreeTidy.Proofs.Engine.Ordering
/-!
Schedules. The rules that are active under some names can be ordered if and only if their constraints do
not go round in a circle; the schedule has the least order that keeps the constraints, and where there
is none, the error names the rules on circles.

The edges of a set of rules are the constraints that one of them states on two of them, in order, and the
lints are the edges that one rule alone states.
-/
namespace TreeTidy

namespace Precedence

/-- Before another in the order of edges. -/
def lt (e f : Precedence) : Prop := e.before < f.before ∨ e.before = f.before ∧ e.after < f.after

theorem le_iff {e f : Precedence} :
    e.le f = true ↔ e.before < f.before ∨ e.before = f.before ∧ e.after ≤ f.after := by
  rw [le]
  split
  case isTrue h => simp [h]
  case isFalse h =>
    simp only [decide_eq_true_eq, h, false_and, or_false]
    exact ⟨fun hle => String.not_le.mp fun hge => h (String.le_antisymm hle hge), le_of_lt⟩

theorem le_trans {d e f : Precedence} (hde : d.le e = true) (hef : e.le f = true) :
    d.le f = true := by
  rw [le_iff] at hde hef ⊢
  rcases hde with hde | ⟨hde, hde'⟩ <;> rcases hef with hef | ⟨hef, hef'⟩
  · exact .inl (String.lt_trans hde hef)
  · exact .inl (hef ▸ hde)
  · exact .inl (hde ▸ hef)
  · exact .inr ⟨hde.trans hef, String.le_trans hde' hef'⟩

theorem le_total (e f : Precedence) : e.le f = true ∨ f.le e = true := by
  simp only [le_iff]
  rcases lt_trichotomy e.before f.before with h | h | h
  · exact .inl (.inl h)
  · exact (String.le_total e.after f.after).imp (fun ha => .inr ⟨h, ha⟩) fun ha => .inr ⟨h.symm, ha⟩
  · exact .inr (.inl h)

theorem lt_of_le_of_ne {e f : Precedence} (h : e.le f = true) (hne : e ≠ f) : e.lt f := by
  refine (le_iff.mp h).imp_right fun ⟨hb, ha⟩ => ⟨hb, String.not_le.mp fun hge => hne ?_⟩
  cases e
  cases f
  exact congrArg₂ mk hb (String.le_antisymm ha hge)

end Precedence

namespace Schedule

variable {rules : List Rule} {active : List String} {r : Rule} {a b d : String} {e : Precedence}

/-- A rule states that one rule runs before another. -/
def Declares (r : Rule) (a b : String) : Prop :=
  r.id = b ∧ a ∈ r.info.after ∨ r.id = a ∧ b ∈ r.info.before

/-- One of the rules states that a rule among them runs before another among them. -/
def Precedes (rules : List Rule) (a b : String) : Prop :=
  a ∈ rules.map Rule.id ∧ b ∈ rules.map Rule.id ∧ ∃ r ∈ rules, Declares r a b

theorem mem_stated (hr : r.id ∈ active) :
    e ∈ stated active r ↔ e.before ∈ active ∧ e.after ∈ active ∧ Declares r e.before e.after := by
  obtain ⟨a, b⟩ := e
  simp only [stated, List.mem_append, List.mem_map, List.mem_filter, List.contains_iff_mem,
    Precedence.mk.injEq, Declares]
  constructor
  · rintro (⟨_, ⟨ha, hin⟩, rfl, rfl⟩ | ⟨_, ⟨hb, hin⟩, rfl, rfl⟩)
    · exact ⟨hin, hr, .inl ⟨rfl, ha⟩⟩
    · exact ⟨hr, hin, .inr ⟨rfl, hb⟩⟩
  · rintro ⟨hina, hinb, ⟨rfl, ha⟩ | ⟨rfl, hb⟩⟩
    · exact .inl ⟨a, ⟨ha, hina⟩, rfl, rfl⟩
    · exact .inr ⟨b, ⟨hb, hinb⟩, rfl, rfl⟩

theorem mem_stated_of_mem (hr : r ∈ rules) : e ∈ stated (rules.map Rule.id) r ↔
    e.before ∈ rules.map Rule.id ∧ e.after ∈ rules.map Rule.id ∧ Declares r e.before e.after :=
  mem_stated (List.mem_map_of_mem hr)

theorem mem_edges : e ∈ edges rules ↔ Precedes rules e.before e.after := by
  simp only [edges, List.mem_mergeSort, List.mem_eraseDups, List.mem_flatMap, Precedes]
  constructor
  · rintro ⟨r, hr, he⟩
    obtain ⟨ha, hb, hd⟩ := (mem_stated_of_mem hr).mp he
    exact ⟨ha, hb, r, hr, hd⟩
  · rintro ⟨ha, hb, r, hr, hd⟩
    exact ⟨r, hr, (mem_stated_of_mem hr).mpr ⟨ha, hb, hd⟩⟩

theorem edges_increasing (rules : List Rule) : (edges rules).Pairwise Precedence.lt := by
  have hsorted : (edges rules).Pairwise fun e f => e.le f = true := by
    apply List.pairwise_mergeSort
    · exact fun _ _ _ => Precedence.le_trans
    · exact fun e f => Bool.or_eq_true_iff.mpr (Precedence.le_total e f)
  have hnodup : (edges rules).Nodup := (List.mergeSort_perm _ _).nodup_iff.mpr (nodup_eraseDups _)
  exact (hsorted.and hnodup).imp fun h => Precedence.lt_of_le_of_ne h.1 h.2

/-- One rule alone declares an edge if and only if no other states it. -/
theorem declarers_eq_singleton (hids : (rules.map Rule.id).Nodup) (he : Precedes rules a b) :
    declarers rules ⟨a, b⟩ = [d] ↔
      ∃ r ∈ rules, r.id = d ∧ Declares r a b ∧ ∀ q ∈ rules, Declares q a b → q = r := by
  obtain ⟨ha, hb, -⟩ := he
  have hmem : ∀ r, r ∈ rules.filter (fun r => (stated (rules.map Rule.id) r).contains ⟨a, b⟩) ↔
      r ∈ rules ∧ Declares r a b := by
    intro r
    rw [List.mem_filter, List.contains_iff_mem]
    exact and_congr_right fun hr => (mem_stated_of_mem hr).trans (by simp only [ha, hb, true_and])
  rw [declarers, List.map_eq_singleton_iff]
  constructor
  · rintro ⟨r, hr, hd⟩
    rw [hr] at hmem
    obtain ⟨hin, hdecl⟩ := (hmem r).mp (.head _)
    exact ⟨r, hin, hd, hdecl, fun q hq hq' => List.mem_singleton.mp ((hmem q).mpr ⟨hq, hq'⟩)⟩
  · rintro ⟨r, hr, hd, hdecl, honly⟩
    refine ⟨r, ?_, hd⟩
    refine List.perm_singleton.mp ((List.perm_ext_iff_of_nodup ?_ (List.nodup_singleton r)).mpr ?_)
    · exact hids.of_map.filter _
    · intro q
      rw [hmem, List.mem_singleton]
      refine ⟨fun hq => honly q hq.1 hq.2, ?_⟩
      rintro rfl
      exact ⟨hr, hdecl⟩

/-- The lints are the edges that one of the rules alone declares. -/
theorem mem_lintsOf (hids : (rules.map Rule.id).Nodup) :
    (⟨a, b, d⟩ : Lint) ∈ lintsOf rules ↔ Precedes rules a b ∧
      ∃ r ∈ rules, r.id = d ∧ Declares r a b ∧ ∀ q ∈ rules, Declares q a b → q = r := by
  rw [lintsOf, List.mem_filterMap]
  constructor
  · rintro ⟨e, he, hl⟩
    split at hl
    case h_1 r hr =>
      cases hl
      exact ⟨mem_edges.mp he, (declarers_eq_singleton hids (mem_edges.mp he)).mp hr⟩
    case h_2 => cases hl
  · rintro ⟨he, hd⟩
    refine ⟨⟨a, b⟩, mem_edges.mpr he, ?_⟩
    rw [(declarers_eq_singleton hids he).mpr hd]

/-- The constraint that a lint is about. -/
def edge (l : Lint) : Precedence := ⟨l.before, l.after⟩

theorem lintsOf_increasing (rules : List Rule) :
    (lintsOf rules).Pairwise fun l m => (edge l).lt (edge m) := by
  rw [lintsOf, List.pairwise_filterMap]
  refine (edges_increasing rules).imp ?_
  intro e f hef l hl m hm
  split at hl
  case h_2 => cases hl
  split at hm
  case h_2 => cases hm
  cases hl
  cases hm
  exact hef

end Schedule

open Relation (TransGen)

variable {specs rules : List Rule} {bundles : List BundleSpec} {c : Catalog} {name : String} {r : Rule}
  {active : List String}

section Names

theorem firstRepeat?_eq_none {taken names : List String} :
    firstRepeat? taken names = none ↔ names.Nodup ∧ ∀ n ∈ names, n ∉ taken := by
  induction names generalizing taken with
  | nil => simp [firstRepeat?]
  | cons n names ih =>
    rw [firstRepeat?]
    by_cases hn : n ∈ taken
    · simp [hn]
    · rw [List.contains_eq_mem, decide_eq_false hn, if_neg Bool.false_ne_true, ih, List.nodup_cons,
        List.forall_mem_cons]
      constructor
      · rintro ⟨hnd, hnew⟩
        exact ⟨⟨fun hin => hnew n hin (.head _), hnd⟩, hn, fun m hm hin => hnew m hm (.tail _ hin)⟩
      · rintro ⟨⟨hin, hnd⟩, -, hnew⟩
        exact ⟨hnd, fun m hm => List.not_mem_cons_of_ne_of_not_mem (fun he => hin (he ▸ hm)) (hnew m hm)⟩

theorem names_of_sameWork {qs rs : List Rule} (h : List.Forall₂ Rule.SameWork qs rs) :
    rs.map Rule.id = qs.map Rule.id ∧
    (rs.flatMap fun r => r.info.aliases) = qs.flatMap fun r => r.info.aliases := by
  induction h with
  | nil => exact ⟨rfl, rfl⟩
  | @cons q r qs rs hqr _ ih =>
    obtain ⟨after, before, rfl⟩ := hqr
    exact ⟨congrArg (q.id :: ·) ih.1, congrArg (q.info.aliases ++ ·) ih.2⟩

theorem mem_sortedSet {n : String} {names : List String} : n ∈ sortedSet names ↔ n ∈ names := by
  rw [sortedSet, List.mem_eraseDups, List.mem_mergeSort]

theorem sortedSet_increasing (names : List String) : (sortedSet names).Pairwise (· < ·) :=
  pairwise_lt_eraseDups_mergeSort (· ≤ ·) (· < ·) (fun _ _ _ => String.le_trans) String.le_total
    (fun _ _ => lt_of_le_of_ne) names

/-- What has different keys is in order after it was sorted by them. -/
theorem increasing_mergeSort {α : Type} (key : α → String) {l : List α} (h : (l.map key).Nodup) :
    (l.mergeSort fun a b => decide (key a ≤ key b)).Pairwise fun a b => key a < key b := by
  have hsorted : (l.mergeSort fun a b => decide (key a ≤ key b)).Pairwise fun a b =>
      decide (key a ≤ key b) = true := by
    refine List.pairwise_mergeSort ?_ ?_ l
    · exact fun _ _ _ hab hbc =>
        decide_eq_true (String.le_trans (of_decide_eq_true hab) (of_decide_eq_true hbc))
    · exact fun a b => by simpa using String.le_total (key a) (key b)
  have hperm := (List.mergeSort_perm l fun a b => decide (key a ≤ key b)).map key
  have hne := List.pairwise_map.mp (hperm.nodup_iff.mpr h)
  exact (hsorted.and hne).imp fun h => lt_of_le_of_ne (of_decide_eq_true h.1) h.2

namespace Catalog

/-- The rules are in order of their ids, and the names of the rules are all different. -/
structure WellNamed (c : Catalog) : Prop where
  increasing : c.rules.Pairwise fun q r => q.id < r.id
  names : (c.rules.map Rule.id ++ c.rules.flatMap fun r => r.info.aliases).Nodup

theorem wellNamed_of_build (h : build specs bundles = .ok c) : c.WellNamed := by
  rw [build] at h
  split at h
  · cases h
  case h_2 hnone =>
  simp only [bind, except_bind_eq_ok, pure, Except.pure, Except.ok.injEq] at h
  obtain ⟨resolved, hres, _, -, rfl⟩ := h
  have hsame : List.Forall₂ Rule.SameWork (specs.mergeSort fun a b => decide (a.id ≤ b.id)) resolved :=
    (mapM_eq_ok.mp hres).imp fun _ _ => sameWork_of_resolveRule
  obtain ⟨hids, haliases⟩ := names_of_sameWork hsame
  have hnames := (firstRepeat?_eq_none.mp hnone).1
  rw [← hids, ← haliases] at hnames
  refine ⟨List.pairwise_map.mp ?_, hnames⟩
  have hspecs := ((List.mergeSort_perm specs _).map Rule.id).nodup_iff.mp
    (hids ▸ (List.nodup_append.mp hnames).1)
  rw [hids]
  exact List.pairwise_map.mpr (increasing_mergeSort Rule.id hspecs)

/-- Where names are all different, rules that answer to the same name are the same. -/
theorem eq_of_answersTo (h : (rules.map Rule.id ++ rules.flatMap fun r => r.info.aliases).Nodup)
    {q : Rule} (hq : q ∈ rules) (hr : r ∈ rules) (hqn : q.info.answersTo name = true)
    (hrn : r.info.answersTo name = true) : q = r := by
  obtain ⟨hids, haliases, hdis⟩ := List.nodup_append'.mp h
  simp only [RuleInfo.answersTo, RuleInfo.names, List.contains_iff_mem, List.mem_cons] at hqn hrn
  have hid : ∀ {r : Rule}, r ∈ rules → r.id ∈ rules.map Rule.id := List.mem_map_of_mem
  have halias : ∀ {r : Rule}, r ∈ rules → name ∈ r.info.aliases →
      name ∈ rules.flatMap fun r => r.info.aliases := fun hr hn => List.mem_flatMap.mpr ⟨_, hr, hn⟩
  rcases hqn with hqn | hqn <;> rcases hrn with hrn | hrn
  · exact List.inj_on_of_nodup_map hids hq hr (hqn.symm.trans hrn)
  · exact absurd (halias hr hrn) (hdis (hqn ▸ hid hq))
  · exact absurd (halias hq hqn) (hdis (hrn ▸ hid hr))
  · by_contra hne
    have : Std.Symm fun q r : Rule => List.Disjoint q.info.aliases r.info.aliases :=
      ⟨fun _ _ => List.Disjoint.symm⟩
    exact (List.nodup_flatMap.mp haliases).2.forall hq hr hne hqn hrn

/-- Rules of a catalog that answer to the same name are the same. -/
theorem WellNamed.eq_of_answersTo (hc : c.WellNamed) {q : Rule} (hq : q ∈ c.rules) (hr : r ∈ c.rules)
    (hqn : q.info.answersTo name = true) (hrn : r.info.answersTo name = true) : q = r :=
  Catalog.eq_of_answersTo hc.names hq hr hqn hrn

theorem WellNamed.get?_eq_some (hc : c.WellNamed) :
    c.get? name = some r ↔ r ∈ c.rules ∧ r.info.answersTo name = true := by
  have hof : ∀ {q : Rule}, c.get? name = some q → q ∈ c.rules ∧ q.info.answersTo name = true := by
    intro q h
    rw [get?, ruleNamed?] at h
    exact ⟨List.mem_of_find?_eq_some h, by simpa using List.find?_some h⟩
  refine ⟨hof, ?_⟩
  rintro ⟨hr, hn⟩
  cases hq : c.get? name with
  | none => exact absurd hn (List.find?_eq_none.mp hq r hr)
  | some q => rw [hc.eq_of_answersTo (hof hq).1 hr (hof hq).2 hn]

/-- The rules of a catalog that answer to some names, in order. -/
def named (c : Catalog) (names : List String) : List Rule :=
  c.rules.filter fun r => names.any r.info.answersTo

theorem WellNamed.named_increasing (hc : c.WellNamed) (names : List String) :
    (c.named names).Pairwise fun q r => q.id < r.id :=
  hc.increasing.sublist List.filter_sublist

end Catalog

end Names

namespace Schedule

theorem ids_increasing (hs : rules.Pairwise fun q r => q.id < r.id) :
    (rules.map Rule.id).Pairwise (· < ·) :=
  List.pairwise_map.mpr hs

theorem nodup_ids (hs : rules.Pairwise fun q r => q.id < r.id) : (rules.map Rule.id).Nodup :=
  (ids_increasing hs).imp fun {_ _} hlt => ne_of_lt hlt

/-- The rule of an id is the one that has it. -/
theorem find?_id_eq_some (hinj : ∀ ⦃q⦄, q ∈ rules → ∀ ⦃r⦄, r ∈ rules → q.id = r.id → q = r)
    {id : String} : rules.find? (·.id == id) = some r ↔ r ∈ rules ∧ r.id = id := by
  constructor
  · exact fun h => ⟨List.mem_of_find?_eq_some h, by simpa using List.find?_some h⟩
  · rintro ⟨hr, rfl⟩
    cases hq : rules.find? (·.id == r.id) with
    | none => exact absurd (beq_self_eq_true r.id) (List.find?_eq_none.mp hq r hr)
    | some q =>
      have hid : q.id = r.id := by simpa using List.find?_some hq
      rw [hinj (List.mem_of_find?_eq_some hq) hr hid]

/-- The rules of some ids, in the order of the ids. -/
theorem map_id_filterMap (hids : (rules.map Rule.id).Nodup) {ids : List String}
    (hin : ∀ id ∈ ids, id ∈ rules.map Rule.id) :
    (ids.filterMap fun id => rules.find? (·.id == id)).map Rule.id = ids := by
  induction ids with
  | nil => rfl
  | cons id ids ih =>
    obtain ⟨hid, hrest⟩ := List.forall_mem_cons.mp hin
    obtain ⟨r, hr, rfl⟩ := List.mem_map.mp hid
    have hfind := (find?_id_eq_some (List.inj_on_of_nodup_map hids)).mpr ⟨hr, rfl⟩
    simp only [List.filterMap_cons, hfind, List.map_cons, ih hrest]

theorem perm_filterMap (hids : (rules.map Rule.id).Nodup) {ids : List String}
    (hperm : ids.Perm (rules.map Rule.id)) :
    (ids.filterMap fun id => rules.find? (·.id == id)).Perm rules := by
  refine (List.perm_ext_iff_of_nodup ?_ hids.of_map).mpr fun r => ?_
  · apply List.Nodup.of_map Rule.id
    rw [map_id_filterMap hids fun _ => hperm.mem_iff.mp]
    exact hperm.nodup_iff.mpr hids
  · simp only [List.mem_filterMap, find?_id_eq_some (List.inj_on_of_nodup_map hids)]
    exact ⟨fun ⟨_, _, hr, _⟩ => hr,
      fun hr => ⟨_, hperm.mem_iff.mpr (List.mem_map_of_mem hr), hr, rfl⟩⟩

/-- A list names all rules, each of them before the rules that it has to run before. -/
structure IsOrder (rules : List Rule) (ids : List String) : Prop where
  perm : ids.Perm (rules.map Rule.id)
  keeps : ∀ a b, Precedes rules a b → ids.idxOf a < ids.idxOf b

theorem leads_edges (rules : List Rule) : Leads (edges rules) = Precedes rules :=
  funext₂ fun _ _ => propext mem_edges

theorem isOrder_iff {ids : List String} :
    IsOrder rules ids ↔ ids.Perm (rules.map Rule.id) ∧ Keeps (edges rules) ids := by
  rw [Keeps, leads_edges]
  constructor
  · exact fun h => ⟨h.perm, fun a b he _ _ => h.keeps a b he⟩
  · rintro ⟨hperm, hk⟩
    exact ⟨hperm, fun a b he => hk a b he (hperm.mem_iff.mpr he.1) (hperm.mem_iff.mpr he.2.1)⟩

/-- A schedule of rules is the least order that keeps their constraints, with a lint for each
constraint that one rule alone declares. -/
structure IsScheduleOf (s : Schedule) (rules : List Rule) : Prop where
  rules_perm : s.rules.Perm rules
  nodup : s.ids.Nodup
  isOrder : IsOrder rules s.ids
  least : ∀ ids, IsOrder rules ids → s.ids ≤ ids
  lints_increasing : s.lints.Pairwise fun l m => (edge l).lt (edge m)
  mem_lints : ∀ a b d, ⟨a, b, d⟩ ∈ s.lints ↔ Precedes rules a b ∧
    ∃ r ∈ rules, r.id = d ∧ Declares r a b ∧ ∀ q ∈ rules, Declares q a b → q = r

theorem isScheduleOf_place (hs : rules.Pairwise fun q r => q.id < r.id)
    {placed : List String} (he : placed = place (edges rules) rules.length (rules.map Rule.id))
    (hperm : placed.Perm (rules.map Rule.id)) (hkeeps : Keeps (edges rules) placed) :
    IsScheduleOf ⟨placed.filterMap fun id => rules.find? (·.id == id), lintsOf rules⟩ rules := by
  have hids := nodup_ids hs
  have hmap := map_id_filterMap hids fun _ => hperm.mem_iff.mp
  refine ⟨perm_filterMap hids hperm, ?_, ?_, ?_, lintsOf_increasing rules, fun _ _ _ => mem_lintsOf hids⟩
  · rw [ids, hmap]
    exact hperm.nodup_iff.mpr hids
  · rw [ids, hmap]
    exact isOrder_iff.mpr ⟨hperm, hkeeps⟩
  · intro other hother
    obtain ⟨hother, hk⟩ := isOrder_iff.mp hother
    rw [ids, hmap, he]
    exact place_le (ids_increasing hs) hother hk

/-- Rules have a schedule, unless their constraints go round in a circle; then the rules on circles are
named. -/
theorem ofRules_exact (hs : rules.Pairwise fun q r => q.id < r.id) :
    (∃ s, ofRules rules = .ok s ∧ IsScheduleOf s rules ∧ ∀ id, ¬TransGen (Precedes rules) id id) ∨
    ∃ ids, ofRules rules = .error (.cycle ids) ∧ ids.Pairwise (· < ·) ∧
      (∃ id, TransGen (Precedes rules) id id) ∧ ∀ id, id ∈ ids ↔ TransGen (Precedes rules) id id := by
  have hids := nodup_ids hs
  obtain ⟨left, hperm, hkeeps, hleft⟩ :=
    exists_left (edges rules) hids (Nat.le_refl (rules.map Rule.id).length)
  simp only [ofRules]
  cases left with
  | nil =>
    rw [List.append_nil] at hperm
    rw [if_neg (Nat.not_lt.mpr (Nat.le_of_eq hperm.length_eq))]
    refine .inl ⟨_, rfl, isScheduleOf_place hs (by rw [List.length_map]) hperm.symm hkeeps, ?_⟩
    rw [← leads_edges]
    refine not_circle hkeeps fun a b he => ?_
    obtain ⟨ha, hb, -⟩ := mem_edges.mp he
    exact ⟨hperm.mem_iff.mp ha, hperm.mem_iff.mp hb⟩
  | cons id left =>
    have hlt := hperm.length_eq
    rw [List.length_append, List.length_cons] at hlt
    rw [if_pos (by omega)]
    refine .inr ⟨_, rfl, (ids_increasing hs).sublist List.filter_sublist, ?_, fun id => ?_⟩
    · rw [← leads_edges]
      exact exists_circle (List.cons_ne_nil _ _) hleft
    · rw [List.mem_filter, onCycle_iff, leads_edges]
      refine and_iff_right_of_imp fun hcircle => ?_
      obtain ⟨_, -, he⟩ := TransGen.tail'_iff.mp hcircle
      exact he.2.1

/-- Ordering the rules of some names orders the rules that answer to them. -/
theorem order_eq_ofRules (hc : c.WellNamed) (hactive : ∀ name ∈ active, (c.get? name).isSome) :
    order c active = ofRules (c.named active) := by
  have hget : List.Forall₂ (fun name r => c.get? name = some r) active (active.filterMap c.get?) := by
    induction active with
    | nil => exact .nil
    | cons name active ih =>
      obtain ⟨hname, hactive⟩ := List.forall_mem_cons.mp hactive
      obtain ⟨r, hr⟩ := Option.isSome_iff_exists.mp hname
      rw [List.filterMap_cons_some hr]
      exact .cons hr (ih hactive)
  have hmem : ∀ r, r ∈ active.filterMap c.get? ↔ r ∈ c.named active := by
    intro r
    simp only [List.mem_filterMap, hc.get?_eq_some, Catalog.named, List.mem_filter, List.any_eq_true]
    exact ⟨fun ⟨n, hn, hr, hrn⟩ => ⟨hr, n, hn, hrn⟩, fun ⟨hr, n, hn, hrn⟩ => ⟨n, hn, hr, hrn⟩⟩
  generalize active.filterMap c.get? = found at hget hmem
  have hs := hc.named_increasing active
  have hids : sortedSet (found.map Rule.id) = (c.named active).map Rule.id := by
    refine (sortedSet_increasing _).eq_of_mem_iff (ids_increasing hs) fun id => ?_
    simp only [mem_sortedSet, List.mem_map, hmem]
  have hfind : ∀ r ∈ c.named active, found.find? (·.id == r.id) = some r := by
    refine fun r hr => (find?_id_eq_some ?_).mpr ⟨(hmem r).mpr hr, rfl⟩
    intro p hp q hq
    exact List.inj_on_of_nodup_map (nodup_ids hs) ((hmem p).mp hp) ((hmem q).mp hq)
  simp only [order]
  rw [mapM_eq_ok.mpr (hget.imp ?_)]
  · refine congrArg ofRules ?_
    rw [hids, List.filterMap_map]
    exact (List.filterMap_congr hfind).trans List.filterMap_some
  · intro name r h
    rw [h]

/-- Only rules of the catalog can be ordered. -/
theorem isSome_of_order {s : Schedule} (h : order c active = .ok s) :
    ∀ name ∈ active, (c.get? name).isSome = true := by
  simp only [order, bind, except_bind_eq_ok] at h
  obtain ⟨found, hfound, -⟩ := h
  intro name hname
  obtain ⟨r, -, hr⟩ := ok_of_mapM_eq_ok hfound name hname
  cases hg : c.get? name with
  | some r => rfl
  | none =>
    rw [hg] at hr
    cases hr

/-- A schedule that could be made has each rule once. -/
theorem nodup_of_order {s : Schedule} (hbuilt : Catalog.build specs bundles = .ok c)
    (h : order c active = .ok s) : s.ids.Nodup := by
  have hc := Catalog.wellNamed_of_build hbuilt
  have hactive := isSome_of_order h
  rw [order_eq_ofRules hc hactive] at h
  obtain ⟨s, hs, hexact, -⟩ | ⟨ids, hs, -⟩ := ofRules_exact (hc.named_increasing active)
  · rw [hs] at h
    cases h
    exact hexact.nodup
  · rw [hs] at h
    cases h

/-- A rule that does nothing, with the rules before and after it. -/
def idle (id : String) (aliases after before : List String) : Rule :=
  ⟨{ RuleInfo.ofId id with aliases := aliases, after := after, before := before }, .node,
    fun _ => .done false⟩

end Schedule

end TreeTidy
