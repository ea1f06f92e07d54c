import Mathlib.Algebra.Order.Group.Multiset
import Mathlib.Data.List.Nodup
import Mathlib.Data.List.Range
import Mathlib.Data.Multiset.MapFold
import Mathlib.Tactic.Abel
import Mathlib.Tactic.Common
import TreeTidy.Command.Run
/-!
The results of a pool do not depend on the order in which its workers take their turns. Each job
that the pool was given is queued, in hand or sent, and nowhere twice, so a pool with nothing left
to do has sent one result for each job. A turn that does something brings the end nearer, and while
something is left to do, there is a worker whose turn does something.
-/
namespace TreeTidy.Pool

variable {α β : Type} {work : α → β} {p : Pool α β} {wanted w : Nat} {jobs : List α}
  {job : Nat × α} {queue : List (Nat × α)} {turns : List Nat}

/-- The jobs in hand. -/
def held (p : Pool α β) : List (Nat × α) := p.hands.filterMap id

/-- The result of a job with the number of the job. -/
def answer (work : α → β) (job : Nat × α) : Nat × β := (job.1, work job.2)

/-- All results, those that are still to come and those sent. -/
def answers (work : α → β) (p : Pool α β) : Multiset (Nat × β) :=
  (p.queue.map (answer work) + p.held.map (answer work) + p.sent : Multiset (Nat × β))

/-- The number of steps that are left: a queued job is taken first and then sent. -/
def pending (p : Pool α β) : Nat := 2 * p.queue.length + p.held.length

def deliver (work : α → β) (p : Pool α β) (w : Nat) (job : Nat × α) : Pool α β :=
  ⟨p.queue, p.hands.set w none, p.sent ++ [answer work job]⟩

def pick (p : Pool α β) (w : Nat) (job : Nat × α) (queue : List (Nat × α)) : Pool α β :=
  ⟨queue, p.hands.set w (some job), p.sent⟩

/-- What a worker does in its turn. -/
theorem turn_cases (work : α → β) (p : Pool α β) (w : Nat) :
    (∃ job, p.hands[w]? = some (some job) ∧ turn work p w = p.deliver work w job) ∨
    (∃ job queue, p.hands[w]? = some none ∧ p.queue = job :: queue ∧
      turn work p w = p.pick w job queue) ∨
    ((p.hands[w]? = some none → p.queue = []) ∧ (∀ job, p.hands[w]? ≠ some (some job)) ∧
      turn work p w = p) := by
  unfold turn
  split
  next i a h => exact .inl ⟨(i, a), h, rfl⟩
  next h =>
    split
    next hq => exact .inr (.inr ⟨fun _ => hq, by simp [h], rfl⟩)
    next job queue hq => exact .inr (.inl ⟨job, queue, h, hq, rfl⟩)
  next h => exact .inr (.inr ⟨by simp [h], by simp [h], rfl⟩)

private theorem perm_of_hand {hands : List (Option (Nat × α))} {hand : Option (Nat × α)}
    (h : hands[w]? = some hand) : hands.Perm (hand :: hands.eraseIdx w) := by
  obtain ⟨hw, rfl⟩ := List.getElem?_eq_some_iff.mp h
  exact (List.getElem_cons_eraseIdx_perm hw).symm

/-- A job that is delivered was in hand, and no other leaves a hand. -/
theorem held_deliver (work : α → β) (h : p.hands[w]? = some (some job)) :
    p.held.Perm (job :: (p.deliver work w job).held) := by
  have hw : w < p.hands.length := (List.getElem?_eq_some_iff.mp h).1
  have hp := (perm_of_hand h).filterMap id
  have hs := (List.set_perm_cons_eraseIdx hw none).filterMap id
  exact hp.trans (hs.symm.cons job)

theorem held_pick (job : Nat × α) (queue : List (Nat × α)) (h : p.hands[w]? = some none) :
    (p.pick w job queue).held.Perm (job :: p.held) := by
  have hw : w < p.hands.length := (List.getElem?_eq_some_iff.mp h).1
  have hp := (perm_of_hand h).filterMap id
  have hs := (List.set_perm_cons_eraseIdx hw (some job)).filterMap id
  exact hs.trans (hp.symm.cons job)

/-- A turn loses no result and gives none twice. -/
theorem answers_turn (work : α → β) (p : Pool α β) (w : Nat) :
    (turn work p w).answers work = p.answers work := by
  obtain ⟨job, h, ht⟩ | ⟨job, queue, h, hq, ht⟩ | ⟨-, -, ht⟩ := turn_cases work p w
  · have hh := Multiset.coe_eq_coe.mpr ((held_deliver work h).map (answer work))
    have hs : ((p.deliver work w job).sent : Multiset (Nat × β)) = p.sent + {answer work job} := by
      simp [deliver, ← Multiset.coe_add]
    rw [ht, answers, answers, hh, hs, List.map_cons, ← Multiset.cons_coe, ← Multiset.singleton_add]
    simp only [deliver]
    abel
  · have hh := Multiset.coe_eq_coe.mpr ((held_pick job queue h).map (answer work))
    rw [ht, answers, answers, hh, hq, List.map_cons, List.map_cons, ← Multiset.cons_coe,
      ← Multiset.cons_coe, ← Multiset.singleton_add, ← Multiset.singleton_add]
    simp only [pick]
    abel
  · rw [ht]

theorem hands_turn (work : α → β) (p : Pool α β) (w : Nat) :
    (turn work p w).hands.length = p.hands.length := by
  obtain ⟨job, -, ht⟩ | ⟨job, queue, -, -, ht⟩ | ⟨-, -, ht⟩ := turn_cases work p w <;> rw [ht]
  · exact List.length_set
  · exact List.length_set

/-- A turn does nothing, or the pool is one step nearer to its end. -/
theorem pending_turn (work : α → β) (p : Pool α β) (w : Nat) :
    turn work p w = p ∨ (turn work p w).pending + 1 = p.pending := by
  obtain ⟨job, h, ht⟩ | ⟨job, queue, h, hq, ht⟩ | ⟨-, -, ht⟩ := turn_cases work p w
  · right
    have hl := (held_deliver work h).length_eq
    simp only [ht, pending, deliver, List.length_cons] at hl ⊢
    omega
  · right
    have hl := (held_pick job queue h).length_eq
    simp only [ht, pending, pick, hq, List.length_cons] at hl ⊢
    omega
  · exact .inl ht

@[simp]
theorem afterTurns_nil : p.afterTurns work [] = p := rfl

@[simp]
theorem afterTurns_cons : p.afterTurns work (w :: turns) = (turn work p w).afterTurns work turns :=
  rfl

theorem afterTurns_append (turns' : List Nat) :
    p.afterTurns work (turns ++ turns') = (p.afterTurns work turns).afterTurns work turns' :=
  List.foldl_append

theorem answers_afterTurns (work : α → β) (p : Pool α β) (turns : List Nat) :
    (p.afterTurns work turns).answers work = p.answers work := by
  induction turns generalizing p with
  | nil => rfl
  | cons w turns ih => rw [afterTurns_cons, ih, answers_turn]

theorem hands_afterTurns (work : α → β) (p : Pool α β) (turns : List Nat) :
    (p.afterTurns work turns).hands.length = p.hands.length := by
  induction turns generalizing p with
  | nil => rfl
  | cons w turns ih => rw [afterTurns_cons, ih, hands_turn]

theorem pending_afterTurns (work : α → β) (p : Pool α β) (turns : List Nat) :
    (p.afterTurns work turns).pending ≤ p.pending := by
  induction turns generalizing p with
  | nil => rfl
  | cons w turns ih =>
    refine (ih _).trans ?_
    obtain h | h := pending_turn work p w
    · rw [h]
    · omega

/-- Turns among which is one that does something bring the end nearer. -/
theorem pending_lt (hw : w ∈ turns) (h : turn work p w ≠ p) :
    (p.afterTurns work turns).pending < p.pending := by
  induction turns with
  | nil => simp at hw
  | cons v turns ih =>
    rw [afterTurns_cons]
    obtain hv | hv := pending_turn work p v
    · rw [hv]
      obtain rfl | hw := List.mem_cons.mp hw
      · exact absurd hv h
      · exact ih hw
    · have hp := pending_afterTurns work (turn work p v) turns
      omega

theorem isIdle_iff : p.isIdle ↔ p.queue = [] ∧ p.held = [] := by
  simp [isIdle, held]

theorem pending_eq_zero : p.pending = 0 ↔ p.isIdle := by
  rw [isIdle_iff, pending, ← List.length_eq_zero_iff, ← List.length_eq_zero_iff]
  omega

theorem turn_of_isIdle (h : p.isIdle) : turn work p w = p := by
  have hz := pending_eq_zero.mpr h
  obtain ht | ht := pending_turn work p w
  · exact ht
  · omega

theorem afterTurns_of_isIdle (h : p.isIdle) : p.afterTurns work turns = p := by
  induction turns with
  | nil => rfl
  | cons w turns ih => rw [afterTurns_cons, turn_of_isIdle h, ih]

theorem turn_of_hand (h : p.hands[w]? = some (some job)) : turn work p w = p.deliver work w job := by
  simp [turn, h, deliver, answer]

theorem turn_of_free (h : p.hands[w]? = some none) (hq : p.queue = job :: queue) :
    turn work p w = p.pick w job queue := by
  simp [turn, h, hq, pick]

theorem mem_held : job ∈ p.held ↔ ∃ w : Nat, p.hands[w]? = some (some job) := by
  simp [held, List.mem_filterMap, ← List.mem_iff_getElem?]

/-- The pool never gets stuck: while something is left to do, a worker has something to do. -/
theorem exists_turn_ne (work : α → β) (hp : 0 < p.hands.length) (h : ¬p.isIdle) :
    ∃ w < p.hands.length, turn work p w ≠ p := by
  by_cases hh : p.held = []
  · have hfree : p.hands[0]? = some none := by
      rw [List.getElem?_eq_getElem hp]
      cases hj : p.hands[0] with
      | none => rfl
      | some job =>
        have hm : job ∈ p.held := mem_held.mpr ⟨0, by rw [List.getElem?_eq_getElem hp, hj]⟩
        simp [hh] at hm
    obtain ⟨job, queue, hq⟩ : ∃ job queue, p.queue = job :: queue := by
      apply List.exists_cons_of_ne_nil
      intro hq
      exact h (isIdle_iff.mpr ⟨hq, hh⟩)
    refine ⟨0, hp, fun he => ?_⟩
    rw [turn_of_free hfree hq] at he
    have hc : queue = job :: queue := (congrArg Pool.queue he).trans hq
    simp at hc
  · obtain ⟨job, hm⟩ := List.exists_mem_of_ne_nil _ hh
    obtain ⟨w, hw⟩ := mem_held.mp hm
    refine ⟨w, (List.getElem?_eq_some_iff.mp hw).1, fun he => ?_⟩
    rw [turn_of_hand hw] at he
    have hc : p.sent ++ [answer work job] = p.sent := congrArg Pool.sent he
    simp at hc

/-- Turns of all workers bring the end nearer. -/
theorem pending_lt_of_all (work : α → β) (hp : 0 < p.hands.length) (h : ¬p.isIdle)
    (ht : ∀ w < p.hands.length, w ∈ turns) : (p.afterTurns work turns).pending < p.pending := by
  obtain ⟨w, hw, hn⟩ := exists_turn_ne work hp h
  exact pending_lt (ht w hw) hn

theorem isIdle_of_rounds {rounds : List (List Nat)} (hp : 0 < p.hands.length)
    (hr : ∀ turns ∈ rounds, ∀ w < p.hands.length, w ∈ turns) (hl : p.pending ≤ rounds.length) :
    (p.afterTurns work rounds.flatten).isIdle := by
  induction rounds generalizing p with
  | nil => exact pending_eq_zero.mp (Nat.le_zero.mp hl)
  | cons turns rounds ih =>
    rw [List.flatten_cons, afterTurns_append]
    by_cases h : p.isIdle
    · rwa [afterTurns_of_isIdle h, afterTurns_of_isIdle h]
    · have hlt := pending_lt_of_all work hp h (hr turns List.mem_cons_self)
      have hh := hands_afterTurns work p turns
      apply ih
      · rwa [hh]
      · rw [hh]
        exact fun turns ht => hr turns (List.mem_cons_of_mem _ ht)
      · rw [List.length_cons] at hl
        omega

theorem workers_pos (wanted jobs : Nat) : 0 < workers wanted jobs := by
  simp [workers]

@[simp]
theorem hands_start (wanted : Nat) (jobs : List α) :
    (start wanted jobs : Pool α β).hands.length = workers wanted jobs.length := by
  simp [start]

@[simp]
theorem held_start (wanted : Nat) (jobs : List α) : (start wanted jobs : Pool α β).held = [] := by
  simp [held, start]

theorem pending_start (wanted : Nat) (jobs : List α) :
    (start wanted jobs : Pool α β).pending = 2 * jobs.length := by
  rw [pending, held_start]
  simp [start]

theorem answers_start (work : α → β) (wanted : Nat) (jobs : List α) :
    (start wanted jobs).answers work =
      ((jobs.map work).zipIdx.map fun (b, i) => (i, b) : List (Nat × β)) := by
  rw [answers, held_start]
  simp [start, List.zipIdx_map, answer, Function.comp_def]

/-- Once nothing is left to do, each job has been sent once, with its number and its own result. -/
theorem sent_perm (hi : ((start wanted jobs).afterTurns work turns).isIdle) :
    ((start wanted jobs).afterTurns work turns).sent.Perm
      ((jobs.map work).zipIdx.map fun (b, i) => (i, b)) := by
  have ha := answers_afterTurns work (start wanted jobs) turns
  obtain ⟨hq, hh⟩ := isIdle_iff.mp hi
  rw [answers_start, answers, hq, hh] at ha
  apply Multiset.coe_eq_coe.mp
  simpa using ha

private theorem lookup_of_nodup {sent : List (Nat × β)} {i : Nat} {b : β}
    (hn : (sent.map Prod.fst).Nodup) (h : (i, b) ∈ sent) : sent.lookup i = some b := by
  induction sent with
  | nil => simp at h
  | cons r sent ih =>
    obtain ⟨hr, hn⟩ := List.nodup_cons.mp hn
    obtain rfl | h := List.mem_cons.mp h
    · simp
    · have hne : i ≠ r.1 := by
        rintro rfl
        exact hr (List.mem_map.mpr ⟨_, h, rfl⟩)
      rw [List.lookup_cons, beq_false_of_ne hne]
      exact ih hn h

/-- In whatever order the results were sent, they are put in the order of the jobs. -/
theorem results_of_perm {bs : List β} (hp : p.sent.Perm (bs.zipIdx.map fun (b, i) => (i, b))) :
    p.results bs.length = bs := by
  have hn : (p.sent.map Prod.fst).Nodup := by
    have hk := hp.map Prod.fst
    rw [hk.nodup_iff]
    simp [Function.comp_def, List.zipIdx_map_snd, List.nodup_range']
  have hl : (List.range bs.length).map (p.sent.lookup ·) = bs.map some := by
    apply List.ext_getElem
    · simp
    · intro i hi _
      have hi : i < bs.length := by simpa using hi
      have hm : (i, bs[i]) ∈ p.sent := by
        rw [hp.mem_iff]
        simp [List.mem_zipIdx_iff_getElem?, hi]
      simp [lookup_of_nodup hn hm]
  calc p.results bs.length
    _ = ((List.range bs.length).map (p.sent.lookup ·)).filterMap id := by
      simp only [results, List.filterMap_map, Function.comp_def, id]
    _ = bs := by rw [hl]; simp

theorem results_of_isIdle (hi : ((start wanted jobs).afterTurns work turns).isIdle) :
    ((start wanted jobs).afterTurns work turns).results jobs.length = jobs.map work := by
  have hr := results_of_perm (sent_perm hi)
  rwa [List.length_map] at hr

/-- Every one of so many workers has a turn again and again. -/
def Fair (workers : Nat) (schedule : Nat → Nat) : Prop :=
  ∀ w < workers, ∀ k, ∃ j ≥ k, schedule j = w

/-- The first turns of a schedule. -/
def opening (schedule : Nat → Nat) (k : Nat) : List Nat := (List.range k).map schedule

theorem opening_add (schedule : Nat → Nat) (k n : Nat) :
    opening schedule (k + n) = opening schedule k ++ opening (fun j => schedule (k + j)) n := by
  simp [opening, List.range_add, Function.comp_def]

theorem Fair.shift {n : Nat} {schedule : Nat → Nat} (h : Fair n schedule) (k : Nat) :
    Fair n fun j => schedule (k + j) := by
  intro w hw i
  obtain ⟨j, hj, rfl⟩ := h w hw (k + i)
  refine ⟨j - k, by omega, ?_⟩
  show schedule (k + (j - k)) = schedule j
  rw [Nat.add_sub_cancel' (by omega)]

/-- When no worker is left out for ever, all jobs are done after finitely many turns. -/
theorem isIdle_of_fair {schedule : Nat → Nat} (work : α → β) (hp : 0 < p.hands.length)
    (hf : Fair p.hands.length schedule) :
    ∃ k, ∀ n ≥ k, (p.afterTurns work (opening schedule n)).isIdle := by
  induction hm : p.pending using Nat.strong_induction_on generalizing p schedule with
  | _ m ih =>
    by_cases h : p.isIdle
    · exact ⟨0, fun n _ => by rwa [afterTurns_of_isIdle h]⟩
    · obtain ⟨w, hw, hn⟩ := exists_turn_ne work hp h
      obtain ⟨j, -, rfl⟩ := hf w hw 0
      have hmem : schedule j ∈ opening schedule (j + 1) :=
        List.mem_map_of_mem (List.mem_range.mpr (Nat.lt_succ_self j))
      have hlt := pending_lt hmem hn
      have hh := hands_afterTurns work p (opening schedule (j + 1))
      have hrest : Fair (p.afterTurns work (opening schedule (j + 1))).hands.length
          fun i => schedule (j + 1 + i) := by
        rw [hh]
        exact hf.shift _
      obtain ⟨k, hk⟩ := ih _ (hm ▸ hlt) (by rwa [hh]) hrest rfl
      refine ⟨j + 1 + k, fun n hn => ?_⟩
      obtain ⟨i, rfl⟩ := Nat.exists_eq_add_of_le (show j + 1 ≤ n by omega)
      rw [opening_add, afterTurns_append]
      exact hk i (by omega)

theorem run_eq_map (wanted : Nat) (work : α → β) (jobs : List α) :
    run wanted work jobs = jobs.map work := by
  apply results_of_isIdle
  apply isIdle_of_rounds
  · simp [workers_pos]
  · intro turns ht w hw
    obtain rfl := List.eq_of_mem_replicate ht
    simpa using hw
  · simp [pending_start]

/-- A batch of units gives one result for each unit, in the order of the units, and each is what
tidying that unit alone gives: in whatever order the workers took their turns until nothing was left
to do, and there comes a time when nothing is left to do unless a worker is left out for ever. -/
theorem batch_in_order (table : Timetable) (limits : Limits) (read : String → Except FileError String)
    (wanted : Nat) (units : List String) :
    let alone := fun unit => tidyText table limits (unit, read unit)
    (∀ turns, ((start wanted units).afterTurns alone turns).isIdle →
      ((start wanted units).afterTurns alone turns).results units.length = units.map alone) ∧
    (∀ schedule, Fair (workers wanted units.length) schedule → ∃ k, ∀ n ≥ k,
      ((start wanted units).afterTurns alone (opening schedule n)).isIdle) ∧
    run wanted alone units = units.map alone := by
  intro alone
  refine ⟨fun turns hi => results_of_isIdle hi, fun schedule hf => ?_, run_eq_map wanted alone units⟩
  have hh := hands_start (β := Except UnitError Tidied) wanted units
  apply isIdle_of_fair alone
  · rw [hh]
    exact workers_pos _ _
  · rwa [hh]

/-- Two workers and three units, one of them twice and one that cannot be read: the first unit is
taken first and its result sent last. -/
theorem late_first_in_order :
    let table : Timetable := ⟨⟨[], []⟩, []⟩
    let read : String → Except FileError String := fun path =>
      if path = "a" then .error .notFound else .ok ""
    let alone := fun unit => tidyText table Limits.standard (unit, read unit)
    let turns := [0, 1, 1, 1, 1, 0]
    ((start 2 ["b", "a", "b"]).afterTurns alone turns).isIdle ∧
      ((start 2 ["b", "a", "b"]).afterTurns alone turns).sent.map Prod.fst = [1, 2, 0] ∧
      ((start 2 ["b", "a", "b"]).afterTurns alone turns).results 3 =
        [alone "b", alone "a", alone "b"] ∧
      Fair 2 (· % 2) ∧
      ∃ k, ∀ n ≥ k, ((start 2 ["b", "a", "b"]).afterTurns alone (opening (· % 2) n)).isIdle := by
  intro table read alone turns
  have hf : Fair 2 (· % 2) := fun w hw k => ⟨2 * k + w, by omega, by show (2 * k + w) % 2 = w; omega⟩
  have hb := batch_in_order table Limits.standard read 2 ["b", "a", "b"]
  exact ⟨rfl, rfl, hb.1 turns rfl, hf, hb.2.1 _ hf⟩

end TreeTidy.Pool
