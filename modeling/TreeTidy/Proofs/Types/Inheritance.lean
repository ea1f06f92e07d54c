import Mathlib.Algebra.GroupWithZero.Nat
import Mathlib.Algebra.Order.BigOperators.Group.List
import Mathlib.Algebra.Order.Group.Nat
import Mathlib.Data.List.Perm.Basic
import Mathlib.Logic.Relation
import Mathlib.Order.WellFounded
import Mathlib.Tactic.Common
import TreeTidy.Types.ClassTable
/-!
Inheritance as far as a class table tells. The search for a supertype expands each class once, so it
ends whatever the table holds, and in whatever order the classes that wait are taken; the answer is no
only if nothing is missing among all that the class inherits from.
-/
namespace TreeTidy.ClassTable

variable {t : ClassTable} {a b c d : String} {info : ClassInfo}

/-- `d` is named as a supertype by the entry of `c`. -/
def Extends (t : ClassTable) (c d : String) : Prop := ∃ info, t.get? c = some info ∧ d ∈ info.supertypes

/-- `d` is reached from `c` by supertypes of classes that have an entry. -/
def LeadsTo (t : ClassTable) (c d : String) : Prop := Relation.ReflTransGen t.Extends c d

theorem get?_eq_some (h : t.get? c = some info) : info ∈ t.entries ∧ info.name = c :=
  ⟨List.mem_of_find?_eq_some h, by simpa using List.find?_some h⟩

/-- How far a search for a supertype is. -/
structure Search where
  seen : List String
  pending : List String
  /-- Whether all that was seen has an entry. -/
  complete : Bool

namespace Search

/-- Only the class itself waits. -/
def start (c : String) : Search := ⟨[], [c], true⟩

/-- One round: any class that waits and is not the one looked for is taken. -/
inductive Step (t : ClassTable) (a : String) : Search → Search → Prop
  | again {seen pending rest : List String} {complete : Bool} {c : String} :
      pending.Perm (c :: rest) → c ≠ a → c ∈ seen →
      Step t a ⟨seen, pending, complete⟩ ⟨seen, rest, complete⟩
  | expand {seen pending rest : List String} {complete : Bool} {c : String} {info : ClassInfo} :
      pending.Perm (c :: rest) → c ≠ a → c ∉ seen → t.get? c = some info →
      Step t a ⟨seen, pending, complete⟩ ⟨c :: seen, info.supertypes ++ rest, complete⟩
  | missing {seen pending rest : List String} {complete : Bool} {c : String} :
      pending.Perm (c :: rest) → c ≠ a → c ∉ seen → t.get? c = none →
      Step t a ⟨seen, pending, complete⟩ ⟨c :: seen, rest, false⟩

/-- A search is over when the class that is looked for comes up, or when nothing waits. -/
inductive Over (a : String) : Search → Resolution Bool → Prop
  | found {s : Search} : a ∈ s.pending → Over a s (.resolved true)
  | exhausted {s : Search} : s.pending = [] → Over a s (if s.complete then .resolved false else .unknown)

/-- A search that is not over goes on. -/
theorem over_or_step (t : ClassTable) (a : String) (s : Search) : (∃ r, Over a s r) ∨ ∃ s', Step t a s s' := by
  obtain ⟨seen, pending, complete⟩ := s
  cases pending with
  | nil => exact .inl ⟨_, .exhausted rfl⟩
  | cons c rest =>
    by_cases ha : a ∈ c :: rest
    · exact .inl ⟨_, .found ha⟩
    have hne : c ≠ a := fun h => ha (h ▸ .head _)
    by_cases hc : c ∈ seen
    · exact .inr ⟨_, .again (.refl _) hne hc⟩
    · cases hi : t.get? c with
      | some info => exact .inr ⟨_, .expand (.refl _) hne hc hi⟩
      | none => exact .inr ⟨_, .missing (.refl _) hne hc hi⟩

section Ending

/-- The supertypes of the entries of classes that were not seen. -/
def unseen (t : ClassTable) (seen : List String) : Nat :=
  ((t.entries.filter fun e => !seen.contains e.name).map fun e => e.supertypes.length).sum

theorem edgeCount_eq (t : ClassTable) : t.edgeCount = unseen t [] := by
  have h : ∀ (es : List ClassInfo) k, es.foldl (fun k c => k + c.supertypes.length) k =
      k + (es.map fun e => e.supertypes.length).sum := by
    intro es
    induction es with
    | nil => simp
    | cons e es ih => intro k; rw [List.foldl_cons, ih, List.map_cons, List.sum_cons, Nat.add_assoc]
  simp [edgeCount, unseen, h]

/-- Once a class is seen, the supertypes that its entry names do not count any more. -/
theorem unseen_cons_le (t : ClassTable) (seen : List String) (c : String) :
    unseen t (c :: seen) ≤ unseen t seen := by
  unfold unseen
  refine ((List.monotone_filter_right _ fun e he => ?_).map _).sum_le_sum fun _ _ => Nat.zero_le _
  simp only [List.contains_cons, Bool.not_or, Bool.and_eq_true] at he
  exact he.2

theorem unseen_expand {seen : List String} (hc : c ∉ seen) (hi : t.get? c = some info) :
    unseen t (c :: seen) + info.supertypes.length ≤ unseen t seen := by
  obtain ⟨hmem, rfl⟩ := get?_eq_some hi
  obtain ⟨front, back, hsplit⟩ := List.append_of_mem hmem
  have hle : ∀ es : List ClassInfo, unseen ⟨es⟩ (info.name :: seen) ≤ unseen ⟨es⟩ seen :=
    fun es => unseen_cons_le ⟨es⟩ seen info.name
  have hf := hle front
  have hb := hle back
  have hin : seen.contains info.name = false := by simpa using hc
  simp only [unseen, hsplit, List.filter_append, List.filter_cons, List.map_append, List.sum_append,
    List.contains_cons, beq_self_eq_true, Bool.true_or, Bool.not_true, Bool.false_eq_true, if_false,
    hin, Bool.not_false, if_true, List.map_cons, List.sum_cons] at hf hb ⊢
  omega

/-- The rounds that can still be made: one for each class that waits or may come to wait. -/
def rounds (t : ClassTable) (s : Search) : Nat := s.pending.length + unseen t s.seen

theorem rounds_lt {s s' : Search} (h : Step t a s s') : rounds t s' < rounds t s := by
  cases h with
  | again hp =>
    have := hp.length_eq
    simp only [rounds, List.length_cons] at this ⊢
    omega
  | expand hp _ hc hi =>
    have := hp.length_eq
    have hu := unseen_expand hc hi
    simp only [rounds, List.length_cons, List.length_append] at this ⊢
    omega
  | @missing seen _ _ _ c hp =>
    have := hp.length_eq
    have hu := unseen_cons_le t seen c
    simp only [rounds, List.length_cons] at this ⊢
    omega

/-- No search goes on for ever. -/
theorem step_wellFounded (t : ClassTable) (a : String) : WellFounded fun s' s => Step t a s s' :=
  Subrelation.wf (fun h => rounds_lt h) (InvImage.wf (rounds t) Nat.lt_wfRel.wf)

end Ending

section Answers

/-- What a search for `a` that began at `c` knows. -/
structure Sound (t : ClassTable) (c a : String) (s : Search) : Prop where
  seen : ∀ d ∈ s.seen, t.LeadsTo c d
  pending : ∀ d ∈ s.pending, t.LeadsTo c d
  begun : c ∈ s.seen ∨ c ∈ s.pending
  closed : ∀ d ∈ s.seen, ∀ e, t.Extends d e → e ∈ s.seen ∨ e ∈ s.pending
  missed : a ∉ s.seen
  complete : s.complete = true ↔ ∀ d ∈ s.seen, t.contains d = true

theorem sound_start (t : ClassTable) (c a : String) : Sound t c a (start c) where
  seen _ hd := absurd hd List.not_mem_nil
  pending _ hd := List.mem_singleton.mp hd ▸ .refl
  begun := .inr (.head _)
  closed _ hd := absurd hd List.not_mem_nil
  missed := List.not_mem_nil
  complete := ⟨fun _ _ hd => absurd hd List.not_mem_nil, fun _ => rfl⟩

/-- What waited when a class was taken is that class or waits still. -/
theorem mem_of_perm {pending rest : List String} (h : pending.Perm (c :: rest)) :
    d ∈ pending ↔ d = c ∨ d ∈ rest := h.mem_iff.trans List.mem_cons

theorem Sound.step {s s' : Search} (hs : Sound t c a s) (h : Step t a s s') : Sound t c a s' := by
  have htaken : ∀ {e : String} {rest : List String}, s.pending.Perm (e :: rest) → t.LeadsTo c e :=
    fun hp => hs.pending _ ((mem_of_perm hp).mpr (.inl rfl))
  cases h with
  | @again seen pending rest complete e hp _ he =>
    have hmove : ∀ d, d ∈ seen ∨ d ∈ pending → d ∈ seen ∨ d ∈ rest := by
      rintro d (hd | hd)
      · exact .inl hd
      · rcases (mem_of_perm hp).mp hd with rfl | hd
        · exact .inl he
        · exact .inr hd
    exact ⟨hs.seen, fun d hd => hs.pending d ((mem_of_perm hp).mpr (.inr hd)), hmove c hs.begun,
      fun d hd e he => hmove e (hs.closed d hd e he), hs.missed, hs.complete⟩
  | @expand seen pending rest complete e info hp hne _ hi =>
    have hmove : ∀ d, d ∈ seen ∨ d ∈ pending → d ∈ e :: seen ∨ d ∈ info.supertypes ++ rest := by
      rintro d (hd | hd)
      · exact .inl (.tail _ hd)
      · rcases (mem_of_perm hp).mp hd with rfl | hd
        · exact .inl (.head _)
        · exact .inr (List.mem_append_right _ hd)
    refine ⟨?_, ?_, hmove c hs.begun, ?_, ?_, ?_⟩
    · exact List.forall_mem_cons.mpr ⟨htaken hp, hs.seen⟩
    · intro d hd
      rcases List.mem_append.mp hd with hd | hd
      · exact (htaken hp).tail ⟨info, hi, hd⟩
      · exact hs.pending d ((mem_of_perm hp).mpr (.inr hd))
    · intro d hd f hf
      rcases List.mem_cons.mp hd with rfl | hd
      · obtain ⟨info', hi', hf⟩ := hf
        obtain rfl := Option.some.inj (hi.symm.trans hi')
        exact .inr (List.mem_append_left _ hf)
      · exact hmove f (hs.closed d hd f hf)
    · exact fun ha => (List.mem_cons.mp ha).elim (fun h => hne h.symm) hs.missed
    · have hin : t.contains e = true := by rw [contains, hi]; rfl
      exact hs.complete.trans ⟨fun h => List.forall_mem_cons.mpr ⟨hin, h⟩, fun h d hd => h d (.tail _ hd)⟩
  | @missing seen pending rest complete e hp hne _ hi =>
    have hmove : ∀ d, d ∈ seen ∨ d ∈ pending → d ∈ e :: seen ∨ d ∈ rest := by
      rintro d (hd | hd)
      · exact .inl (.tail _ hd)
      · rcases (mem_of_perm hp).mp hd with rfl | hd
        · exact .inl (.head _)
        · exact .inr hd
    refine ⟨List.forall_mem_cons.mpr ⟨htaken hp, hs.seen⟩, ?_, hmove c hs.begun, ?_, ?_, ?_⟩
    · exact fun d hd => hs.pending d ((mem_of_perm hp).mpr (.inr hd))
    · intro d hd f hf
      rcases List.mem_cons.mp hd with rfl | hd
      · obtain ⟨info, hi', -⟩ := hf
        cases hi.symm.trans hi'
      · exact hmove f (hs.closed d hd f hf)
    · exact fun ha => (List.mem_cons.mp ha).elim (fun h => hne h.symm) hs.missed
    · have hout : t.contains e = false := by rw [contains, hi]; rfl
      refine ⟨fun h => (by cases h), fun h => ?_⟩
      rw [h e (.head _)] at hout
      cases hout

/-- A search that is over and found nothing has seen all that the class inherits from. -/
theorem Sound.mem_seen {s : Search} (hs : Sound t c a s) (hp : s.pending = []) (h : t.LeadsTo c d) :
    d ∈ s.seen := by
  have hin : ∀ e, e ∈ s.seen ∨ e ∈ s.pending → e ∈ s.seen := fun e he =>
    he.resolve_right fun h => by rw [hp] at h; exact List.not_mem_nil h
  induction h with
  | refl => exact hin c hs.begun
  | tail _ hstep ih => exact hin _ (hs.closed _ ih _ hstep)

/-- What the table tells about `c` and `a`. -/
inductive Verdict (t : ClassTable) (c a : String) : Resolution Bool → Prop
  | inherits : t.LeadsTo c a → Verdict t c a (.resolved true)
  | apart : ¬ t.LeadsTo c a → (∀ d, t.LeadsTo c d → t.contains d = true) →
      Verdict t c a (.resolved false)
  | undecided {d : String} : ¬ t.LeadsTo c a → t.LeadsTo c d → t.contains d = false →
      Verdict t c a .unknown

theorem Verdict.eq {r r' : Resolution Bool} (h : Verdict t c a r) (h' : Verdict t c a r') : r = r' := by
  cases h with
  | inherits hr => cases h' with
    | inherits => rfl
    | apart hn => exact absurd hr hn
    | undecided hn => exact absurd hr hn
  | apart hn hall => cases h' with
    | inherits hr => exact absurd hr hn
    | apart => rfl
    | undecided _ hd hout => cases (hall _ hd).symm.trans hout
  | undecided hn hd hout => cases h' with
    | inherits hr => exact absurd hr hn
    | apart _ hall => cases (hall _ hd).symm.trans hout
    | undecided => rfl

theorem Sound.verdict {s : Search} {r : Resolution Bool} (hs : Sound t c a s) (h : Over a s r) :
    Verdict t c a r := by
  cases h with
  | found ha => exact .inherits (hs.pending a ha)
  | exhausted hp =>
    have hn : ¬ t.LeadsTo c a := fun h => hs.missed (hs.mem_seen hp h)
    cases hc : s.complete with
    | true => exact .apart hn fun d hd => hs.complete.mp hc d (hs.mem_seen hp hd)
    | false =>
      obtain ⟨d, hd, hout⟩ : ∃ d ∈ s.seen, ¬ t.contains d = true := by
        by_contra hall
        push Not at hall
        cases hc.symm.trans (hs.complete.mpr hall)
      exact .undecided hn (hs.seen d hd) (Bool.eq_false_iff.mpr hout)

theorem sound_of_run {s : Search} (hrun : Relation.ReflTransGen (Step t a) (start c) s) :
    Sound t c a s := by
  induction hrun with
  | refl => exact sound_start t c a
  | tail _ hstep ih => exact ih.step hstep

/-- Whatever the order, a search that is over has found what the table tells. -/
theorem verdict_of_run {s : Search} {r : Resolution Bool}
    (hrun : Relation.ReflTransGen (Step t a) (start c) s) (h : Over a s r) : Verdict t c a r :=
  (sound_of_run hrun).verdict h

end Answers

/-- With a round to spare the search with fuel is one of the searches, the first that waits taken first. -/
theorem searchSupertype_run (t : ClassTable) (a : String) (fuel : Nat) (s : Search)
    (hf : rounds t s < fuel) : ∃ s', Relation.ReflTransGen (Step t a) s s' ∧
      Over a s' (t.searchSupertype a fuel s.seen s.pending s.complete) := by
  induction fuel generalizing s with
  | zero => exact absurd hf (Nat.not_lt_zero _)
  | succ fuel ih =>
    obtain ⟨seen, pending, complete⟩ := s
    have hnext : ∀ s', Step t a ⟨seen, pending, complete⟩ s' → ∃ s'',
        Relation.ReflTransGen (Step t a) ⟨seen, pending, complete⟩ s'' ∧
          Over a s'' (t.searchSupertype a fuel s'.seen s'.pending s'.complete) := by
      intro s' hstep
      obtain ⟨s'', hrun, hover⟩ := ih s' (by have := rounds_lt hstep; omega)
      exact ⟨s'', hrun.head hstep, hover⟩
    cases pending with
    | nil => exact ⟨_, .refl, .exhausted rfl⟩
    | cons e rest =>
      rw [searchSupertype]
      split_ifs with hea hseen
      · exact ⟨_, .refl, .found (hea ▸ .head _)⟩
      · exact hnext _ (.again (.refl _) hea (List.contains_iff_mem.mp hseen))
      · have hnew : e ∉ seen := fun h => hseen (List.contains_iff_mem.mpr h)
        cases hi : t.get? e with
        | some info => exact hnext _ (.expand (.refl _) hea hnew hi)
        | none => exact hnext _ (.missing (.refl _) hea hnew hi)

end Search

open Search

theorem isSubtype_verdict (t : ClassTable) (c a : String) : Verdict t c a (t.isSubtype c a) := by
  have hf : rounds t (start c) < t.edgeCount + 2 := by
    rw [edgeCount_eq]
    simp only [rounds, start, List.length_singleton]
    omega
  obtain ⟨s, hrun, hover⟩ := searchSupertype_run t a _ (start c) hf
  exact verdict_of_run hrun hover

theorem isSubtype_eq_true_iff (t : ClassTable) (c a : String) :
    t.isSubtype c a = .resolved true ↔ t.LeadsTo c a := by
  refine ⟨fun h => ?_, fun h => (isSubtype_verdict t c a).eq (.inherits h)⟩
  have hv := isSubtype_verdict t c a
  rw [h] at hv
  cases hv with
  | inherits hr => exact hr

theorem isSubtype_eq_false_iff (t : ClassTable) (c a : String) : t.isSubtype c a = .resolved false ↔
    ¬ t.LeadsTo c a ∧ ∀ d, t.LeadsTo c d → t.contains d = true := by
  refine ⟨fun h => ?_, fun h => (isSubtype_verdict t c a).eq (.apart h.1 h.2)⟩
  have hv := isSubtype_verdict t c a
  rw [h] at hv
  cases hv with
  | apart hn hall => exact ⟨hn, hall⟩

theorem isSubtype_eq_unknown_iff (t : ClassTable) (c a : String) : t.isSubtype c a = .unknown ↔
    ¬ t.LeadsTo c a ∧ ∃ d, t.LeadsTo c d ∧ t.contains d = false := by
  refine ⟨fun h => ?_, fun ⟨hn, d, hd, hout⟩ => (isSubtype_verdict t c a).eq (.undecided hn hd hout)⟩
  have hv := isSubtype_verdict t c a
  rw [h] at hv
  cases hv with
  | undecided hn hd hout => exact ⟨hn, _, hd, hout⟩

/-- Every search for a supertype ends, in any order, with the answer of the one that is made. The answer
is yes exactly for what is reached, no exactly if the table knows all that is reached and the class is
not among it, and open in all other cases. -/
theorem isSubtype_exact (t : ClassTable) :
    (∀ c a, Acc (fun s' s => Step t a s s') (start c) ∧
      ∀ s, Relation.ReflTransGen (Step t a) (start c) s →
        ((∃ r, Over a s r) ∨ ∃ s', Step t a s s') ∧ ∀ r, Over a s r → r = t.isSubtype c a) ∧
    (∀ c a, t.isSubtype c a = .resolved true ↔ t.LeadsTo c a) ∧
    (∀ c a, t.isSubtype c a = .resolved false ↔
      ¬ t.LeadsTo c a ∧ ∀ d, t.LeadsTo c d → t.contains d = true) ∧
    (∀ c a, t.isSubtype c a = .unknown ↔ ¬ t.LeadsTo c a ∧ ∃ d, t.LeadsTo c d ∧ t.contains d = false) ∧
    (∀ c, t.isSubtype c c = .resolved true) ∧
    ∀ c d a, t.isSubtype c d = .resolved true → t.isSubtype d a = .resolved true →
      t.isSubtype c a = .resolved true := by
  refine ⟨fun c a => ⟨(step_wellFounded t a).apply _, fun s hrun => ⟨over_or_step t a s, fun r hr => ?_⟩⟩,
    isSubtype_eq_true_iff t, isSubtype_eq_false_iff t, isSubtype_eq_unknown_iff t, fun c => ?_,
    fun c d a hcd hda => ?_⟩
  · exact (verdict_of_run hrun hr).eq (isSubtype_verdict t c a)
  · exact (isSubtype_eq_true_iff t c c).mpr .refl
  · exact (isSubtype_eq_true_iff t c a).mpr
      (((isSubtype_eq_true_iff t c d).mp hcd).trans ((isSubtype_eq_true_iff t d a).mp hda))

/-- `"List"` names `"Collection"` twice and is named by it; `"Iterable"` has no entry. -/
def circular : ClassTable :=
  ⟨[⟨"List", true, ["Collection", "Collection"], [], none⟩,
    ⟨"Collection", true, ["Iterable", "List"], [], none⟩]⟩

/-- The search that takes `"List"` and one `"Collection"` finds `"Iterable"` beside the other. -/
theorem isSubtype_circular :
    let s : Search := ⟨["Collection", "List"], ["Iterable", "List", "Collection"], true⟩
    (Relation.ReflTransGen (Step circular "Iterable") (start "List") s ∧ Over "Iterable" s (.resolved true) ∧
      .resolved true = circular.isSubtype "List" "Iterable") ∧
    (circular.isSubtype "List" "Collection" = .resolved true ∧
      circular.isSubtype "Collection" "List" = .resolved true ∧
      circular.isSubtype "List" "List" = .resolved true) ∧
    circular.isSubtype "List" "Map" = .unknown ∧ ¬ circular.LeadsTo "List" "Map" := by
  obtain ⟨hruns, -, -, hopen, -, htrans⟩ := isSubtype_exact circular
  have hlist : circular.get? "List" = some _ := rfl
  have hcollection : circular.get? "Collection" = some _ := rfl
  have hfirst : Step circular "Iterable" (start "List") ⟨["List"], ["Collection", "Collection"], true⟩ := by
    refine .expand (.refl _) ?_ ?_ hlist <;> decide
  have hsecond : Step circular "Iterable" ⟨["List"], ["Collection", "Collection"], true⟩
      ⟨["Collection", "List"], ["Iterable", "List", "Collection"], true⟩ := by
    refine .expand (.refl _) ?_ ?_ hcollection <;> decide
  have hrun := (Relation.ReflTransGen.single hfirst).tail hsecond
  have hover : Over "Iterable" ⟨["Collection", "List"], ["Iterable", "List", "Collection"], true⟩
      (.resolved true) := .found (.head _)
  have hto : circular.isSubtype "List" "Collection" = .resolved true := by decide
  have hback : circular.isSubtype "Collection" "List" = .resolved true := by decide
  have hmap : circular.isSubtype "List" "Map" = .unknown := by decide
  exact ⟨⟨hrun, hover, ((hruns _ _).2 _ hrun).2 _ hover⟩, ⟨hto, hback, htrans _ _ _ hto hback⟩,
    hmap, ((hopen _ _).mp hmap).1⟩

end TreeTidy.ClassTable
