import TreeTidy.Engine.Schedule
import TreeTidy.Proofs.Tree.Fits
/-!
Where the rules of schedules come from. A catalog changes nothing of its rules but their constraints,
and schedules take the rules of their catalog.
-/
namespace TreeTidy

theorem exists_of_mapM_eq_ok {ε α β : Type} {f : α → Except ε β} {as : List α} {bs : List β}
    (h : as.mapM f = .ok bs) : ∀ b ∈ bs, ∃ a ∈ as, f a = .ok b := by
  induction as generalizing bs with
  | nil =>
    cases h
    exact nofun
  | cons a as ih =>
    simp only [List.mapM_cons, bind, except_bind_eq_ok, pure, Except.pure, Except.ok.injEq] at h
    obtain ⟨b, hb, bs, hbs, rfl⟩ := h
    refine List.forall_mem_cons.mpr ⟨⟨a, .head _, hb⟩, ?_⟩
    intro b' hb'
    obtain ⟨a', ha', he⟩ := ih hbs b' hb'
    exact ⟨a', .tail _ ha', he⟩

/-- The rules differ in their constraints at most. -/
def Rule.SameWork (q r : Rule) : Prop :=
  ∃ after before, r = { q with info := { q.info with after := after, before := before } }

theorem sameWork_of_resolveRule {rules : List Rule} {q r : Rule}
    (h : resolveRule rules q = .ok r) : q.SameWork r := by
  simp only [resolveRule, bind, except_bind_eq_ok, pure, Except.pure, Except.ok.injEq] at h
  obtain ⟨after, -, before, -, rfl⟩ := h
  exact ⟨after, before, rfl⟩

theorem Catalog.sameWork_of_build {rules : List Rule} {bundles : List BundleSpec} {c : Catalog}
    (h : build rules bundles = .ok c) : ∀ r ∈ c.rules, ∃ q ∈ rules, q.SameWork r := by
  rw [build] at h
  split at h
  · cases h
  · simp only [bind, except_bind_eq_ok, pure, Except.pure, Except.ok.injEq] at h
    obtain ⟨resolved, hres, _, -, rfl⟩ := h
    intro r hr
    obtain ⟨q, hq, he⟩ := exists_of_mapM_eq_ok hres r hr
    exact ⟨q, List.mem_mergeSort.mp hq, sameWork_of_resolveRule he⟩

namespace Schedule

theorem mem_of_ofRules {rules : List Rule} {s : Schedule} (h : ofRules rules = .ok s) :
    ∀ r ∈ s.rules, r ∈ rules := by
  simp only [ofRules] at h
  split at h
  · cases h
  · cases h
    intro r hr
    obtain ⟨id, -, hf⟩ := List.mem_filterMap.mp hr
    exact List.mem_of_find?_eq_some hf

theorem mem_of_order {c : Catalog} {active : List String} {s : Schedule}
    (h : order c active = .ok s) : ∀ r ∈ s.rules, r ∈ c.rules := by
  simp only [order, bind, except_bind_eq_ok] at h
  obtain ⟨rules, hrules, h⟩ := h
  intro r hr
  obtain ⟨id, -, hf⟩ := List.mem_filterMap.mp (mem_of_ofRules h r hr)
  obtain ⟨name, -, hn⟩ := exists_of_mapM_eq_ok hrules r (List.mem_of_find?_eq_some hf)
  split at hn
  next q hq =>
    cases hn
    exact List.mem_of_find?_eq_some hq
  · cases hn

theorem mem_of_ofSelection {c : Catalog} {sel : Selection} {s : Schedule}
    (h : ofSelection c sel = .ok s) : ∀ r ∈ s.rules, r ∈ c.rules := by
  simp only [ofSelection, bind, except_bind_eq_ok] at h
  obtain ⟨active, -, h⟩ := h
  exact mem_of_order h

end Schedule

/-- At every level, the rules of a timetable are rules of the catalog. -/
theorem Timetable.mem_of_ofSelection {c : Catalog} {sel : Selection} {table : Timetable}
    (h : ofSelection c sel = .ok table) (level : Level) :
    ∀ r ∈ (table.scheduleAt level).rules, r ∈ c.rules := by
  simp only [ofSelection, bind, except_bind_eq_ok, pure, Except.pure, Except.ok.injEq] at h
  obtain ⟨base, hb, later, hl, rfl⟩ := h
  rw [scheduleAt]
  split
  next l schedule he =>
    have hmem := List.mem_of_getLast? he
    obtain ⟨l', -, hs⟩ := exists_of_mapM_eq_ok hl _ (List.mem_filter.mp hmem).1
    simp only [except_bind_eq_ok, Except.ok.injEq, Prod.mk.injEq] at hs
    obtain ⟨_, hs, -, rfl⟩ := hs
    exact Schedule.mem_of_ofSelection hs
  · exact Schedule.mem_of_ofSelection hb

end TreeTidy
