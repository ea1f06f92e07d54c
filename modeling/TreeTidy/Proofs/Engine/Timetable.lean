import Mathlib.Data.List.Forall2
import Mathlib.Data.List.Permutation
import Mathlib.Data.Nat.Basic
import TreeTidy.Proofs.Engine.Names
/-!
Timetables. Which rules are active changes at the thresholds only, so a level has the schedule of the
highest threshold not above it; a timetable says of every level what scheduling for that level says.
-/
namespace TreeTidy.Timetable

variable {c : Catalog} {s : Selection} {l level : Level} {table : Timetable} {e : ScheduleError}

/-- Levels that admit the same rules of the catalog have the same schedule. -/
theorem scheduleOf_congr {l' : Level}
    (h : ∀ r ∈ c.rules, r.info.minLevel ≤ l ↔ r.info.minLevel ≤ l') :
    scheduleOf c s l = scheduleOf c s l' := by
  have hadmits : ∀ named id, (c.get? id).any (fun r => { s with level := l }.admits named r.info) =
      (c.get? id).any fun r => { s with level := l' }.admits named r.info := by
    intro named id
    cases hr : c.get? id with
    | none => rfl
    | some r =>
      have hmem : r ∈ c.rules := List.mem_of_find?_eq_some hr
      simp only [Option.any_some, Selection.admits, decide_eq_decide.mpr (h r hmem)]
  have hresolve : { s with level := l }.resolve c = { s with level := l' }.resolve c := by
    simp only [Selection.resolve, hadmits]
  simp only [scheduleOf, Schedule.ofSelection, hresolve]

theorem mem_thresholds :
    l ∈ thresholds c ↔ 0 < l ∧ ∃ r ∈ c.rules, r.info.minLevel = l := by
  simp only [thresholds, List.mem_eraseDups, List.mem_mergeSort, List.mem_filter, List.mem_map,
    decide_eq_true_eq]
  exact and_comm

theorem thresholds_increasing (c : Catalog) : (thresholds c).Pairwise (· < ·) :=
  pairwise_lt_eraseDups_mergeSort (· ≤ ·) (· < ·) (fun _ _ _ => Nat.le_trans) Nat.le_total
    (fun _ _ => Nat.lt_of_le_of_ne) _

/-- The highest of the levels that is not above a level, or 0. -/
def floor (levels : List Level) (level : Level) : Level :=
  ((levels.filter fun l => decide (l ≤ level)).getLast?).getD 0

theorem floor_le (levels : List Level) (level : Level) : floor levels level ≤ level := by
  rw [floor]
  cases h : (levels.filter fun l => decide (l ≤ level)).getLast? with
  | none => exact Nat.zero_le _
  | some l => simpa using (List.mem_filter.mp (List.mem_of_getLast? h)).2

theorem floor_mem (levels : List Level) (level : Level) :
    floor levels level = 0 ∨ floor levels level ∈ levels := by
  rw [floor]
  cases h : (levels.filter fun l => decide (l ≤ level)).getLast? with
  | none => exact .inl rfl
  | some l => exact .inr (List.mem_filter.mp (List.mem_of_getLast? h)).1

theorem le_floor {levels : List Level} (hs : levels.Pairwise (· < ·)) (hl : l ∈ levels)
    (hle : l ≤ level) : l ≤ floor levels level := by
  have hmem : l ∈ levels.filter fun l => decide (l ≤ level) := List.mem_filter.mpr ⟨hl, by simpa⟩
  obtain ⟨front, last, he⟩ := (List.eq_nil_or_concat' _).resolve_left (List.ne_nil_of_mem hmem)
  have hsorted := hs.sublist (List.filter_sublist (p := fun l => decide (l ≤ level)))
  rw [he] at hmem hsorted
  rw [floor, he, List.getLast?_append_cons, List.getLast?_singleton, Option.getD_some]
  rcases List.mem_append.mp hmem with hf | hf
  · exact Nat.le_of_lt ((List.pairwise_append.mp hsorted).2.2 l hf last (.head _))
  · exact Nat.le_of_eq (List.mem_singleton.mp hf)

/-- A level has the schedule of the highest threshold not above it. -/
theorem scheduleOf_floor (c : Catalog) (s : Selection) (level : Level) :
    scheduleOf c s (floor (thresholds c) level) = scheduleOf c s level := by
  apply scheduleOf_congr
  intro r hr
  refine ⟨fun h => Nat.le_trans h (floor_le _ _), ?_⟩
  intro h
  rcases Nat.eq_zero_or_pos r.info.minLevel with h0 | h0
  · rw [h0]
    exact Nat.zero_le _
  · exact le_floor (thresholds_increasing c) (mem_thresholds.mpr ⟨h0, r, hr, rfl⟩) h

/-- The schedules of some levels, with the levels. -/
def schedulesOf (c : Catalog) (s : Selection) (levels : List Level) :
    Except ScheduleError (List (Level × Schedule)) :=
  levels.mapM fun l => (scheduleOf c s l).map (l, ·)

theorem ofSelection_eq (c : Catalog) (s : Selection) : ofSelection c s =
    (scheduleOf c s 0).bind fun base => (schedulesOf c s (thresholds c)).map (⟨base, ·⟩) := by
  have hmap : ∀ l, (do let a ← scheduleOf c s l; pure (l, a) : Except ScheduleError _) =
      (scheduleOf c s l).map (l, ·) := fun l => by cases scheduleOf c s l <;> rfl
  simp only [ofSelection, hmap]
  rfl

theorem of_schedulesOf {levels : List Level} {later : List (Level × Schedule)}
    (h : schedulesOf c s levels = .ok later) :
    later.map Prod.fst = levels ∧ ∀ e ∈ later, scheduleOf c s e.1 = .ok e.2 := by
  replace h := mapM_eq_ok.mp h
  induction h with
  | nil => exact ⟨rfl, nofun⟩
  | @cons l e levels later he _ ih =>
    obtain ⟨a, ha, rfl⟩ : ∃ a, scheduleOf c s l = .ok a ∧ e = (l, a) := by
      cases hl : scheduleOf c s l with
      | error e' =>
        rw [hl] at he
        cases he
      | ok a =>
        rw [hl] at he
        exact ⟨a, rfl, (Except.ok.inj he).symm⟩
    exact ⟨congrArg (l :: ·) ih.1, List.forall_mem_cons.mpr ⟨ha, ih.2⟩⟩

/-- A timetable fails at the first threshold that has no schedule, counting 0 as the first of all. -/
theorem ofSelection_eq_error (h : ofSelection c s = .error e) : ∃ front l back,
    0 :: thresholds c = front ++ l :: back ∧ (∀ l ∈ front, ∃ a, scheduleOf c s l = .ok a) ∧
    scheduleOf c s l = .error e := by
  rw [ofSelection_eq] at h
  cases h0 : scheduleOf c s 0 with
  | error e' =>
    rw [h0] at h
    exact ⟨[], 0, thresholds c, rfl, nofun, h0.trans (congrArg _ (Except.error.inj h))⟩
  | ok base =>
    have herr : schedulesOf c s (thresholds c) = .error e := by
      rw [h0] at h
      cases hl : schedulesOf c s (thresholds c) with
      | error e' =>
        rw [hl] at h
        exact congrArg _ (Except.error.inj h)
      | ok later =>
        rw [hl] at h
        cases h
    obtain ⟨front, l, back, hsplit, hfront, hl⟩ := mapM_eq_error.mp herr
    refine ⟨0 :: front, l, back, congrArg _ hsplit, List.forall_mem_cons.mpr ⟨⟨base, h0⟩, ?_⟩, ?_⟩
    · intro l hmem
      obtain ⟨b, hb⟩ := hfront l hmem
      cases hl : scheduleOf c s l with
      | error e' =>
        rw [hl] at hb
        cases hb
      | ok a => exact ⟨a, rfl⟩
    · cases hs : scheduleOf c s l with
      | error e' =>
        rw [hs] at hl
        exact congrArg _ (Except.error.inj hl)
      | ok a =>
        rw [hs] at hl
        cases hl

/-- What a timetable gives for a level is the schedule for that level. -/
theorem scheduleAt_eq (h : ofSelection c s = .ok table) (level : Level) :
    scheduleOf c s level = .ok (table.scheduleAt level) := by
  rw [ofSelection_eq, except_bind_eq_ok] at h
  obtain ⟨base, hb, h⟩ := h
  cases hl : schedulesOf c s (thresholds c) with
  | error e =>
    rw [hl] at h
    cases h
  | ok later =>
  rw [hl] at h
  cases h
  obtain ⟨hfst, hsched⟩ := of_schedulesOf hl
  have hlast : ((later.filter fun e => decide (e.1 ≤ level)).getLast?).map Prod.fst =
      ((thresholds c).filter fun l => decide (l ≤ level)).getLast? := by
    rw [← hfst, List.filter_map, List.getLast?_map]
    rfl
  rw [← scheduleOf_floor, floor, ← hlast, scheduleAt]
  cases hg : (later.filter fun e => decide (e.1 ≤ level)).getLast? with
  | none => exact hb
  | some e => exact hsched e (List.mem_filter.mp (List.mem_of_getLast? hg)).1

/-- A timetable fails as scheduling for the lowest level that has no schedule does. -/
theorem lowest_error (h : ofSelection c s = .error e) : ∃ l ∈ 0 :: thresholds c,
    scheduleOf c s l = .error e ∧ ∀ lower < l, ∃ a, scheduleOf c s lower = .ok a := by
  obtain ⟨front, l, back, hsplit, hfront, hl⟩ := ofSelection_eq_error h
  refine ⟨l, hsplit ▸ List.mem_append_right _ (.head _), hl, ?_⟩
  intro lower hlt
  have hsorted : (front ++ l :: back).Pairwise (· < ·) := hsplit ▸ List.pairwise_cons.mpr
    ⟨fun _ hm => (mem_thresholds.mp hm).1, thresholds_increasing c⟩
  have hmem : floor (thresholds c) lower ∈ front ++ l :: back := by
    rw [← hsplit]
    rcases floor_mem (thresholds c) lower with h0 | hm
    · exact h0 ▸ .head _
    · exact .tail _ hm
  rw [← scheduleOf_floor]
  rcases List.mem_append.mp hmem with hm | hm
  · exact hfront _ hm
  · -- the highest threshold not above the lower level is below the first that fails
    have hle : l ≤ floor (thresholds c) lower := by
      rcases List.mem_cons.mp hm with he | hm
      · exact Nat.le_of_eq he.symm
      · exact Nat.le_of_lt ((List.pairwise_cons.mp (List.pairwise_append.mp hsorted).2.1).1 _ hm)
    exact absurd (Nat.le_trans hle (floor_le _ _)) (Nat.not_le.mpr hlt)

/-- There is a timetable if and only if every level has a schedule; it gives each level the schedule of
that level, and where there is none, the lowest level without a schedule says why. -/
theorem ofSelection_agrees (s : Selection) (hc : ∀ r ∈ c.rules, r.info.minLevel ≤ Level.last) :
    ((∃ table, ofSelection c s = .ok table) ↔
      ∀ level ≤ Level.last, ∃ a, scheduleOf c s level = .ok a) ∧
    (∀ table, ofSelection c s = .ok table →
      ∀ level, scheduleOf c s level = .ok (table.scheduleAt level)) ∧
    ∀ e, ofSelection c s = .error e → ∃ level ≤ Level.last, scheduleOf c s level = .error e ∧
      ∀ lower < level, ∃ a, scheduleOf c s lower = .ok a := by
  have herror : ∀ e, ofSelection c s = .error e → ∃ level ≤ Level.last,
      scheduleOf c s level = .error e ∧ ∀ lower < level, ∃ a, scheduleOf c s lower = .ok a := by
    intro e h
    obtain ⟨l, hmem, hl, hlower⟩ := lowest_error h
    refine ⟨l, ?_, hl, hlower⟩
    rcases List.mem_cons.mp hmem with rfl | hmem
    · exact Nat.zero_le _
    · obtain ⟨-, r, hr, rfl⟩ := mem_thresholds.mp hmem
      exact hc r hr
  refine ⟨⟨fun ⟨table, h⟩ level _ => ⟨_, scheduleAt_eq h level⟩, ?_⟩, fun _ => scheduleAt_eq, herror⟩
  intro hall
  cases h : ofSelection c s with
  | ok table => exact ⟨table, rfl⟩
  | error e =>
    obtain ⟨level, hle, hl, -⟩ := herror e h
    obtain ⟨a, ha⟩ := hall level hle
    rw [hl] at ha
    cases ha

/-- Two rules that each want to run first, from level 11 on, next to one that does not mind. -/
def quarrel : Catalog :=
  ⟨[⟨{ RuleInfo.ofId "Ping" with minLevel := 11, before := ["Pong"] }, .node, fun _ => .done false⟩,
    ⟨RuleInfo.ofId "Plain", .node, fun _ => .done false⟩,
    ⟨{ RuleInfo.ofId "Pong" with minLevel := 11, before := ["Ping"] }, .node, fun _ => .done false⟩], []⟩

/-- The quarrel keeps the timetable from being made, though no level below 11 knows of it. -/
theorem quarrel_fails_at_11 : (∀ r ∈ quarrel.rules, r.info.minLevel ≤ Level.last) ∧
    ofSelection quarrel .standard = .error (.cycle ["Ping", "Pong"]) ∧
    ∃ level ≤ Level.last, scheduleOf quarrel .standard level = .error (.cycle ["Ping", "Pong"]) ∧
      ∀ lower < level, ∃ a, scheduleOf quarrel .standard lower = .ok a := by
  have hc : ∀ r ∈ quarrel.rules, r.info.minLevel ≤ Level.last := by decide
  have herror : ofSelection quarrel .standard = .error (.cycle ["Ping", "Pong"]) := by cbv
  exact ⟨hc, herror, (ofSelection_agrees .standard hc).2.2 _ herror⟩

end TreeTidy.Timetable
