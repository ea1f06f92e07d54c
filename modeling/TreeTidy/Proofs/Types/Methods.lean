import TreeTidy.Proofs.Types.Inheritance
/-!
Inherited methods. The search for a method keeps the classes that wait on a pile, where one may wait several
times; what it finds is what a recursive visit comes to first, which goes through the supertypes of a class
one after the other, each with all above it, and enters no class twice.
-/
namespace TreeTidy.ClassTable

open Search (unseen unseen_cons_le unseen_expand edgeCount_eq)

variable {t : ClassTable} {c d m : String} {info : ClassInfo} {r : Option MethodInfo}
  {seen seen' pending cs ds order order' : List String}

/-- The method of that name that the entry of a class declares; one that it inherits does not count. -/
def declared? (t : ClassTable) (m c : String) : Option MethodInfo := (t.get? c).bind (·.findMethod? m)

theorem declared?_eq_none_iff :
    t.declared? m c = none ↔ ∀ info, t.get? c = some info → ∀ f ∈ info.methods, f.name ≠ m := by
  simp [declared?, ClassInfo.findMethod?]

/-- A recursive visit of classes, one after the other, after some that were visited before: each class comes
before what is above it, and what is above it before the next class. Classes that were visited and classes
without an entry are passed over. -/
inductive Visits (t : ClassTable) : (seen classes order : List String) → Prop
  | done {seen : List String} : Visits t seen [] []
  | again {seen cs order : List String} {c : String} :
      c ∈ seen → Visits t seen cs order → Visits t seen (c :: cs) order
  | missing {seen cs order : List String} {c : String} :
      t.get? c = none → Visits t seen cs order → Visits t seen (c :: cs) order
  | enter {seen cs above order : List String} {c : String} {info : ClassInfo} :
      c ∉ seen → t.get? c = some info → Visits t (c :: seen) info.supertypes above →
      Visits t (above ++ c :: seen) cs order → Visits t seen (c :: cs) (c :: above ++ order)

/-- A search with a pile that ends, and what it finds. -/
inductive Finds (t : ClassTable) (m : String) : (seen pending : List String) → Option MethodInfo → Prop
  | exhausted {seen : List String} : Finds t m seen [] none
  | again {seen rest : List String} {c : String} {r : Option MethodInfo} :
      c ∈ seen → Finds t m seen rest r → Finds t m seen (c :: rest) r
  | missing {seen rest : List String} {c : String} {r : Option MethodInfo} :
      c ∉ seen → t.get? c = none → Finds t m (c :: seen) rest r → Finds t m seen (c :: rest) r
  | found {seen rest : List String} {c : String} {info : ClassInfo} {f : MethodInfo} :
      c ∉ seen → t.get? c = some info → info.findMethod? m = some f → Finds t m seen (c :: rest) (some f)
  | expand {seen rest : List String} {c : String} {info : ClassInfo} {r : Option MethodInfo} :
      c ∉ seen → t.get? c = some info → info.findMethod? m = none →
      Finds t m (c :: seen) (info.supertypes ++ rest) r → Finds t m seen (c :: rest) r

namespace Visits

/-- Of what was seen before, only classes with an entry count. -/
theorem congr (h : Visits t seen cs order)
    (hs : ∀ d info, t.get? d = some info → (d ∈ seen ↔ d ∈ seen')) : Visits t seen' cs order := by
  induction h generalizing seen' with
  | done => exact .done
  | @again _ _ _ c hc _ ih =>
    cases hi : t.get? c with
    | none => exact .missing hi (ih hs)
    | some info => exact .again ((hs c info hi).mp hc) (ih hs)
  | missing hi _ ih => exact .missing hi (ih hs)
  | enter hc hi _ _ ih₁ ih₂ =>
    refine .enter (fun h => hc ((hs _ _ hi).mpr h)) hi (ih₁ ?_) (ih₂ ?_)
    · intro d info hd
      simp only [List.mem_cons, hs d info hd]
    · intro d info hd
      simp only [List.mem_append, List.mem_cons, hs d info hd]

/-- To have seen a class without an entry makes no difference. -/
theorem seen_missing (h : Visits t seen cs order) (hi : t.get? c = none) :
    Visits t (c :: seen) cs order := by
  apply h.congr
  intro d info hd
  have hne : d ≠ c := fun he => by rw [he, hi] at hd; cases hd
  simp only [List.mem_cons, hne, false_or]

theorem append (h : Visits t seen cs order) (h' : Visits t (order ++ seen) ds order') :
    Visits t seen (cs ++ ds) (order ++ order') := by
  induction h with
  | done => exact h'
  | again hc _ ih => exact .again hc (ih h')
  | missing hi _ ih => exact .missing hi (ih h')
  | enter hc hi ha _ _ ih =>
    rw [List.append_assoc]
    apply Visits.enter hc hi ha
    apply ih
    apply h'.congr
    intro d _ _
    simp only [List.mem_append, List.mem_cons]
    tauto

/-- The later classes are visited after all that comes of the earlier ones. -/
theorem split (h : Visits t seen (cs ++ ds) order) : ∃ front back, order = front ++ back ∧
    Visits t seen cs front ∧ Visits t (front ++ seen) ds back := by
  induction cs generalizing seen order with
  | nil => exact ⟨[], order, rfl, .done, h⟩
  | cons c cs ih =>
    cases h with
    | again hc h =>
      obtain ⟨front, back, he, hfront, hback⟩ := ih h
      exact ⟨front, back, he, .again hc hfront, hback⟩
    | missing hi h =>
      obtain ⟨front, back, he, hfront, hback⟩ := ih h
      exact ⟨front, back, he, .missing hi hfront, hback⟩
    | @enter _ _ above _ _ info hc hi ha h =>
      obtain ⟨front, back, rfl, hfront, hback⟩ := ih h
      refine ⟨c :: above ++ front, back, (List.append_assoc ..).symm, .enter hc hi ha hfront, ?_⟩
      apply hback.congr
      intro d _ _
      simp only [List.mem_append, List.mem_cons]
      tauto

/-- There is one order only. -/
theorem unique (h : Visits t seen cs order) (h' : Visits t seen cs order') : order' = order := by
  induction h generalizing order' with
  | done => cases h'; rfl
  | again hc _ ih =>
    cases h' with
    | again _ h' => exact ih h'
    | missing _ h' => exact ih h'
    | enter hn => exact absurd hc hn
  | missing hi _ ih =>
    cases h' with
    | again _ h' => exact ih h'
    | missing _ h' => exact ih h'
    | enter _ hi' => cases hi.symm.trans hi'
  | enter hc hi _ _ ih₁ ih₂ =>
    cases h' with
    | again hc' => exact absurd hc' hc
    | missing hi' => cases hi.symm.trans hi'
    | enter _ hi' ha' h' =>
      obtain rfl := Option.some.inj (hi.symm.trans hi')
      obtain rfl := ih₁ ha'
      rw [ih₂ h']

/-- Only what the classes lead to is visited. -/
theorem leadsTo (h : Visits t seen cs order) (hd : d ∈ order) :
    t.contains d = true ∧ ∃ c ∈ cs, t.LeadsTo c d := by
  induction h with
  | done => cases hd
  | again _ _ ih =>
    obtain ⟨hin, c, hc, hlead⟩ := ih hd
    exact ⟨hin, c, .tail _ hc, hlead⟩
  | missing _ _ ih =>
    obtain ⟨hin, c, hc, hlead⟩ := ih hd
    exact ⟨hin, c, .tail _ hc, hlead⟩
  | @enter _ _ _ _ c info _ hi _ _ ih₁ ih₂ =>
    rcases List.mem_append.mp hd with hd | hd
    · rcases List.mem_cons.mp hd with rfl | hd
      · exact ⟨by rw [contains, hi]; rfl, d, .head _, .refl⟩
      · obtain ⟨hin, e, he, hlead⟩ := ih₁ hd
        exact ⟨hin, c, .head _, hlead.head ⟨info, hi, he⟩⟩
    · obtain ⟨hin, e, he, hlead⟩ := ih₂ hd
      exact ⟨hin, e, .tail _ he, hlead⟩

/-- The classes are visited as far as they have an entry, and so is all that a visited class names. -/
theorem closed (h : Visits t seen cs order) :
    (∀ c ∈ cs, t.contains c = true → c ∈ order ++ seen) ∧
    ∀ d ∈ order, ∀ e, t.Extends d e → t.contains e = true → e ∈ order ++ seen := by
  induction h with
  | done => exact ⟨nofun, nofun⟩
  | again hc _ ih =>
    exact ⟨List.forall_mem_cons.mpr ⟨fun _ => List.mem_append_right _ hc, ih.1⟩, ih.2⟩
  | missing hi _ ih =>
    refine ⟨List.forall_mem_cons.mpr ⟨fun hin => ?_, ih.1⟩, ih.2⟩
    rw [contains, hi] at hin
    cases hin
  | @enter seen _ above order c info _ hi _ _ ih₁ ih₂ =>
    have hfront : ∀ e, e ∈ above ++ c :: seen → e ∈ c :: above ++ order ++ seen := by
      intro e he
      simp only [List.mem_append, List.mem_cons] at he ⊢
      tauto
    have hback : ∀ e, e ∈ order ++ (above ++ c :: seen) → e ∈ c :: above ++ order ++ seen := by
      intro e he
      simp only [List.mem_append, List.mem_cons] at he ⊢
      tauto
    refine ⟨List.forall_mem_cons.mpr ⟨fun _ => .head _, fun e he hin => hback e (ih₂.1 e he hin)⟩, ?_⟩
    intro d hd e hext hin
    rcases List.mem_append.mp hd with hd | hd
    · rcases List.mem_cons.mp hd with rfl | hd
      · obtain ⟨info', hi', he⟩ := hext
        obtain rfl := Option.some.inj (hi.symm.trans hi')
        exact hfront e (ih₁.1 e he hin)
      · exact hfront e (ih₁.2 d hd e hext hin)
    · exact hback e (ih₂.2 d hd e hext hin)

/-- From one class on, what is visited is what the class leads to and has an entry. -/
theorem mem_iff (h : Visits t [] [c] order) : d ∈ order ↔ t.LeadsTo c d ∧ t.contains d = true := by
  obtain ⟨hfirst, hnext⟩ := h.closed
  simp only [List.append_nil] at hfirst hnext
  constructor
  · intro hd
    obtain ⟨hin, e, he, hlead⟩ := h.leadsTo hd
    exact ⟨List.mem_singleton.mp he ▸ hlead, hin⟩
  · rintro ⟨hlead, hin⟩
    induction hlead with
    | refl => exact hfirst c (.head _) hin
    | tail _ hext ih =>
      have hfrom := hext
      obtain ⟨info, hi, -⟩ := hfrom
      exact hnext _ (ih (by rw [contains, hi]; rfl)) _ hext hin

end Visits

/-- Each class is entered once, so a visit comes to its end. -/
theorem exists_visits (t : ClassTable) (fuel : Nat) (seen cs : List String)
    (hf : cs.length + unseen t seen < fuel) : ∃ order, Visits t seen cs order := by
  induction fuel generalizing seen cs with
  | zero => exact absurd hf (Nat.not_lt_zero _)
  | succ fuel ih =>
    cases cs with
    | nil => exact ⟨[], .done⟩
    | cons c cs =>
      rw [List.length_cons] at hf
      by_cases hc : c ∈ seen
      · obtain ⟨order, h⟩ := ih seen cs (by omega)
        exact ⟨order, .again hc h⟩
      cases hi : t.get? c with
      | none =>
        obtain ⟨order, h⟩ := ih seen cs (by omega)
        exact ⟨order, .missing hi h⟩
      | some info =>
        have hu := unseen_expand hc hi
        obtain ⟨order, h⟩ := ih (c :: seen) (info.supertypes ++ cs) (by rw [List.length_append]; omega)
        obtain ⟨above, rest, -, habove, hrest⟩ := h.split
        exact ⟨_, .enter hc hi habove hrest⟩

/-- A search with a pile finds what comes first in a visit of all that waits. -/
theorem Finds.eq_findSome? (h : Finds t m seen pending r) (hv : Visits t seen pending order) :
    r = order.findSome? (t.declared? m) := by
  induction h generalizing order with
  | exhausted => cases hv; rfl
  | again hc _ ih =>
    cases hv with
    | again _ hv => exact ih hv
    | missing _ hv => exact ih hv
    | enter hn => exact absurd hc hn
  | missing hc hi _ ih =>
    cases hv with
    | again hc' => exact absurd hc' hc
    | missing _ hv => exact ih (hv.seen_missing hi)
    | enter _ hi' => cases hi.symm.trans hi'
  | found hc hi hm =>
    cases hv with
    | again hc' => exact absurd hc' hc
    | missing hi' => cases hi.symm.trans hi'
    | enter => simp [declared?, hi, hm]
  | expand hc hi hm _ ih =>
    cases hv with
    | again hc' => exact absurd hc' hc
    | missing hi' => cases hi.symm.trans hi'
    | enter _ hi' ha hv =>
      obtain rfl := Option.some.inj (hi.symm.trans hi')
      rw [ih (ha.append hv), List.cons_append, List.findSome?_cons]
      simp [declared?, hi, hm]

/-- With a round to spare the search with fuel ends by itself. -/
theorem searchMethod_finds (t : ClassTable) (m : String) (fuel : Nat) (seen pending : List String)
    (hf : pending.length + unseen t seen < fuel) :
    Finds t m seen pending (t.searchMethod m fuel seen pending) := by
  induction fuel generalizing seen pending with
  | zero => exact absurd hf (Nat.not_lt_zero _)
  | succ fuel ih =>
    cases pending with
    | nil => exact .exhausted
    | cons c rest =>
      rw [List.length_cons] at hf
      rw [searchMethod]
      split
      next hc => exact .again (List.contains_iff_mem.mp hc) (ih seen rest (by omega))
      next hc =>
        have hnew : c ∉ seen := fun h => hc (List.contains_iff_mem.mpr h)
        cases hi : t.get? c with
        | none =>
          have hu := unseen_cons_le t seen c
          exact .missing hnew hi (ih (c :: seen) rest (by omega))
        | some info =>
          have hu := unseen_expand hnew hi
          dsimp only
          cases hm : info.findMethod? m with
          | some f => exact .found hnew hi hm
          | none => exact .expand hnew hi hm (ih _ _ (by rw [List.length_append]; omega))

theorem findMethod?_finds (t : ClassTable) (c m : String) : Finds t m [] [c] (t.findMethod? c m) := by
  apply searchMethod_finds
  rw [edgeCount_eq, List.length_singleton]
  omega

/-- The search for a method always ends, whatever the table holds. It gives the method of the class that comes
first among those that declare one of that name, in the order of the recursive visit from the class, of which
there is exactly one; and it gives none exactly if no class that is reached declares such a method. -/
theorem findMethod?_exact (t : ClassTable) (c m : String) :
    (∀ r, Finds t m [] [c] r ↔ r = t.findMethod? c m) ∧
    (∃ order, (∀ o, Visits t [] [c] o ↔ o = order) ∧
      t.findMethod? c m = order.findSome? (t.declared? m)) ∧
    (t.findMethod? c m = none ↔
      ∀ d info, t.LeadsTo c d → t.get? d = some info → ∀ f ∈ info.methods, f.name ≠ m) := by
  have hfinds := findMethod?_finds t c m
  obtain ⟨order, hv⟩ := exists_visits t (2 + unseen t []) [] [c] (by rw [List.length_singleton]; omega)
  have hfirst := hfinds.eq_findSome? hv
  refine ⟨fun r => ⟨fun h => ?_, fun h => h ▸ hfinds⟩,
    ⟨order, fun o => ⟨fun ho => hv.unique ho, fun he => he ▸ hv⟩, hfirst⟩, ?_⟩
  · rw [hfirst]
    exact h.eq_findSome? hv
  · rw [hfirst, List.findSome?_eq_none_iff]
    constructor
    · intro hnone d info hlead hi
      have hin : t.contains d = true := by rw [contains, hi]; rfl
      exact declared?_eq_none_iff.mp (hnone d (hv.mem_iff.mpr ⟨hlead, hin⟩)) info hi
    · intro hnone d hd
      exact declared?_eq_none_iff.mpr fun info hi => hnone d info (hv.mem_iff.mp hd).1 hi

/-- `"Seq"` and `"Bag"` share `"Top"`, and `"Seq"` names `"Stack"` again; `"Any"` has no entry. -/
def shared : ClassTable :=
  ⟨[⟨"Stack", false, ["Bag", "Seq"], [], none⟩,
    ⟨"Bag", true, ["Any", "Top"], [], none⟩,
    ⟨"Seq", true, ["Top", "Stack"], [⟨"size", .primitive .int, false⟩], none⟩,
    ⟨"Top", true, [], [⟨"size", .primitive .long, false⟩], none⟩]⟩

/-- What is above the first supertype comes before the second one, although that is nearer. -/
theorem findMethod?_shared :
    Visits shared [] ["Stack"] ["Stack", "Bag", "Top", "Seq"] ∧
    shared.findMethod? "Stack" "size" = some ⟨"size", .primitive .long, false⟩ ∧
    shared.findMethod? "Stack" "clear" = none ∧
    ∀ d info, shared.LeadsTo "Stack" d → shared.get? d = some info →
      ∀ f ∈ info.methods, f.name ≠ "clear" := by
  have htop : Visits shared ["Bag", "Stack"] ["Any", "Top"] ["Top"] :=
    .missing rfl (@Visits.enter _ _ _ [] [] "Top" _ (by decide) rfl .done .done)
  have hagain : Visits shared ["Seq", "Top", "Bag", "Stack"] ["Top", "Stack"] [] :=
    .again (by decide) (.again (by decide) .done)
  have hseq : Visits shared ["Top", "Bag", "Stack"] ["Seq"] ["Seq"] :=
    @Visits.enter _ _ _ [] [] "Seq" _ (by decide) rfl hagain .done
  have hbag : Visits shared ["Stack"] ["Bag", "Seq"] ["Bag", "Top", "Seq"] :=
    @Visits.enter _ _ _ ["Top"] ["Seq"] "Bag" _ (by decide) rfl htop hseq
  have hvisits : Visits shared [] ["Stack"] ["Stack", "Bag", "Top", "Seq"] :=
    @Visits.enter _ _ _ ["Bag", "Top", "Seq"] [] "Stack" _ (by decide) rfl hbag .done
  obtain ⟨-, ⟨order, horder, hfirst⟩, -⟩ := findMethod?_exact shared "Stack" "size"
  obtain ⟨-, -, hnone⟩ := findMethod?_exact shared "Stack" "clear"
  have hclear : shared.findMethod? "Stack" "clear" = none := by decide
  refine ⟨hvisits, ?_, hclear, hnone.mp hclear⟩
  rw [hfirst, ← (horder _).mp hvisits]
  decide

end TreeTidy.ClassTable
