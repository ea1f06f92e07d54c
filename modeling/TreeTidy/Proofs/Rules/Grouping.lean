import TreeTidy.Proofs.Engine.Visits
import TreeTidy.Proofs.Rules.Literal
import TreeTidy.Proofs.Tree.Succession
/-!
Digits in groups of three. Plain decimal numbers of five digits or more are grouped, and nothing else is;
the underscores are all that is new, so the number stays the same, and what was grouped once is never
grouped again.
-/
namespace TreeTidy.Rules

open SyntaxTree

section Texts

variable {text grouped : String} {ds digits suffix first : List Char} {rest : List (List Char)}

/-- Groups of three digits, of which the first one may be shorter, but not empty. -/
structure Grouping (first : List Char) (rest : List (List Char)) : Prop where
  nonempty : first ≠ []
  short : first.length ≤ 3
  full : ∀ g ∈ rest, g.length = 3

/-- Five decimal digits or more, not with a zero in front, and the suffix of a `long` if there is one. -/
structure Plain (digits suffix : List Char) : Prop where
  decimal : ∀ c ∈ digits, c.isDigit = true
  long : 5 ≤ digits.length
  leading : digits.head? ≠ some '0'
  suffix : suffix = [] ∨ suffix = ['l'] ∨ suffix = ['L']

theorem Plain.not_underscore (h : Plain digits suffix) : '_' ∉ digits ++ suffix := by
  intro hm
  obtain hm | hm := List.mem_append.mp hm
  · exact absurd (h.decimal _ hm) (by decide)
  · rcases h.suffix with rfl | rfl | rfl <;> simp at hm

/-- The second text is the first one with its digits in groups. -/
structure GroupsTo (text grouped : String) : Prop where
  deleted : grouped.toList.filter (· ≠ '_') = text.toList
  groups : ∃ first rest suffix, Grouping first rest ∧ Plain (first :: rest).flatten suffix ∧
    text.toList = (first :: rest).flatten ++ suffix ∧
    grouped.toList = ['_'].intercalate (first :: rest) ++ suffix
  /-- It is not grouped again. -/
  once : groupDigits? grouped = none

theorem Grouping.length_flatten (h : Grouping first rest) :
    (first :: rest).flatten.length = first.length + 3 * rest.length := by
  have hrest : rest.flatten.length = 3 * rest.length := by
    rw [List.length_flatten, List.map_eq_replicate_iff.mpr h.full, List.sum_replicate_nat, Nat.mul_comm]
  rw [List.flatten_cons, List.length_append, hrest]

/-- Where the distance to the end is a multiple of three, a new group begins; else the first group becomes
longer, and was of two digits at most. -/
theorem exists_grouping (h : ds ≠ []) : ∃ first rest, Grouping first rest ∧
    (first :: rest).flatten = ds ∧ groupInThrees ds = ['_'].intercalate (first :: rest) := by
  induction ds using groupInThrees.induct with
  | case1 => exact absurd rfl h
  | case2 d => exact ⟨[d], [], ⟨by simp, by simp, by simp⟩, rfl, rfl⟩
  | case3 d e cs hc ih =>
    obtain ⟨first, rest, hg, hflat, heq⟩ := ih (List.cons_ne_nil e cs)
    have hlen := hg.length_flatten
    have hpos := List.length_pos_iff.mpr hg.nonempty
    have hthree : first.length = 3 := by
      rw [hflat, List.length_cons] at hlen
      have hshort := hg.short
      omega
    refine ⟨[d], first :: rest, ⟨by simp, by simp, ?_⟩, congrArg (d :: ·) hflat, ?_⟩
    · exact List.forall_mem_cons.mpr ⟨hthree, hg.full⟩
    · rw [groupInThrees, if_pos hc, heq, List.intercalate_cons_cons]
      rfl
  | case4 d e cs hc ih =>
    obtain ⟨first, rest, hg, hflat, heq⟩ := ih (List.cons_ne_nil e cs)
    have hlen := hg.length_flatten
    have htwo : first.length ≤ 2 := by
      rw [hflat, List.length_cons] at hlen
      have hshort := hg.short
      omega
    refine ⟨d :: first, rest, ⟨by simp, ?_, hg.full⟩, congrArg (d :: ·) hflat, ?_⟩
    · rw [List.length_cons]
      omega
    · rw [groupInThrees, if_neg hc, heq]
      cases rest with
      | nil => simp
      | cons g gs => simp [List.intercalate_cons_cons]

theorem filter_groupInThrees (h : ∀ c ∈ ds, c.isDigit = true) :
    (groupInThrees ds).filter (· ≠ '_') = ds := by
  have hkeep : ∀ c : Char, c.isDigit = true → decide (c ≠ '_') = true := by
    intro c hc
    refine decide_eq_true ?_
    rintro rfl
    exact absurd hc (by decide)
  induction ds using groupInThrees.induct with
  | case1 => rfl
  | case2 d => exact List.filter_cons_of_pos (hkeep d (h d (.head _)))
  | case3 d e cs hc ih =>
    obtain ⟨hd, hrest⟩ := List.forall_mem_cons.mp h
    rw [groupInThrees, if_pos hc, List.filter_cons, if_pos (hkeep d hd),
      List.filter_cons_of_neg (by decide), ih hrest]
  | case4 d e cs hc ih =>
    obtain ⟨hd, hrest⟩ := List.forall_mem_cons.mp h
    rw [groupInThrees, if_neg hc, List.filter_cons, if_pos (hkeep d hd), ih hrest]

theorem Plain.span (h : Plain digits suffix) : (digits ++ suffix).takeWhile Char.isDigit = digits ∧
    (digits ++ suffix).dropWhile Char.isDigit = suffix := by
  have hstop : suffix.takeWhile Char.isDigit = [] ∧ suffix.dropWhile Char.isDigit = suffix := by
    rcases h.suffix with rfl | rfl | rfl <;> exact ⟨rfl, rfl⟩
  rw [List.takeWhile_append_of_pos h.decimal, List.dropWhile_append_of_pos h.decimal, hstop.1, hstop.2,
    List.append_nil]
  exact ⟨rfl, rfl⟩

/-- Plain numbers are grouped, and nothing else is. -/
theorem groupDigits?_iff : groupDigits? text = some grouped ↔ ∃ digits suffix,
    text.toList = digits ++ suffix ∧ Plain digits suffix ∧
    grouped = String.ofList (groupInThrees digits ++ suffix) := by
  simp only [groupDigits?]
  constructor
  · intro h
    split at h
    · cases h
    next hc =>
      simp only [not_or, Nat.not_lt] at hc
      refine ⟨_, _, List.takeWhile_append_dropWhile.symm, ⟨?_, hc.2.1, hc.2.2, ?_⟩, (Option.some.inj h).symm⟩
      · exact fun c => List.mem_takeWhile_imp
      · by_contra hs
        exact hc.1 (by simpa only [not_or] using hs)
  · rintro ⟨digits, suffix, ht, hp, rfl⟩
    rw [ht, hp.span.1, hp.span.2, if_neg]
    rintro (⟨hs, hl, hL⟩ | hlen | hzero)
    · rcases hp.suffix with h | h | h
      exacts [hs h, hl h, hL h]
    · exact absurd hp.long (Nat.not_le.mpr hlen)
    · exact hp.leading hzero

theorem groupDigits?_isSome : (groupDigits? text).isSome = true ↔
    ∃ digits suffix, text.toList = digits ++ suffix ∧ Plain digits suffix := by
  rw [Option.isSome_iff_exists]
  constructor
  · rintro ⟨grouped, h⟩
    obtain ⟨digits, suffix, ht, hp, -⟩ := groupDigits?_iff.mp h
    exact ⟨digits, suffix, ht, hp⟩
  · rintro ⟨digits, suffix, ht, hp⟩
    exact ⟨_, groupDigits?_iff.mpr ⟨digits, suffix, ht, hp, rfl⟩⟩

/-- A number in which there is an underscore already is not grouped. -/
theorem groupDigits?_of_underscore (h : '_' ∈ text.toList) : groupDigits? text = none := by
  rw [← Option.not_isSome_iff_eq_none, groupDigits?_isSome]
  rintro ⟨digits, suffix, ht, hp⟩
  exact hp.not_underscore (ht ▸ h)

theorem underscore_of_groupDigits? (h : groupDigits? text = some grouped) : '_' ∈ grouped.toList := by
  obtain ⟨digits, suffix, -, hp, rfl⟩ := groupDigits?_iff.mp h
  have hlong : 4 ≤ digits.length := hp.long.trans' (by decide)
  rw [String.toList_ofList]
  exact List.mem_append_left _ (underscore_mem_groupInThrees hlong)

theorem groupsTo_of_groupDigits? (h : groupDigits? text = some grouped) : GroupsTo text grouped := by
  have honce := groupDigits?_of_underscore (underscore_of_groupDigits? h)
  obtain ⟨digits, suffix, ht, hp, rfl⟩ := groupDigits?_iff.mp h
  obtain ⟨first, rest, hg, rfl, heq⟩ := exists_grouping (List.ne_nil_of_length_pos (hp.long.trans_lt' (by decide)))
  have hsuffix : suffix.filter (· ≠ '_') = suffix := by
    rcases hp.suffix with rfl | rfl | rfl <;> rfl
  refine ⟨?_, ⟨first, rest, suffix, hg, hp, ht, ?_⟩, honce⟩
  · rw [String.toList_ofList, List.filter_append, filter_groupInThrees hp.decimal, hsuffix, ht]
  · rw [String.toList_ofList, heq]

/-- The number read from digits in groups is the one read from the digits. -/
theorem intValue?_grouped (h : groupDigits? text = some grouped) : intValue? grouped = intValue? text := by
  have hdeleted := (groupsTo_of_groupDigits? h).deleted
  have hagain : text.toList.filter (· ≠ '_') = text.toList := by
    rw [← hdeleted, List.filter_filter]
    simp
  simp only [intValue?, hdeleted, hagain]

end Texts

section Trees

variable {t u v : SyntaxTree} {n m k : NodeId} {x y : Edit.Setting} {sort : LiteralSort}
  {text grouped : String}

/-- What programs make of a tree, one after the other. -/
def Reworked : SyntaxTree → SyntaxTree → Prop :=
  Relation.ReflTransGen fun t u => ∃ (x : Edit.Setting) (e : Edit Bool) (es : List Event),
    (e.runFrom x t es).tree = u

/-- Nodes remain what they are, and the dead remain dead. -/
theorem Reworked.kept (h : Reworked t u) (ht : t.Linked) : u.Linked ∧ t.Lives u ∧ t.KeepsKinds u := by
  induction h with
  | refl => exact ⟨ht, .refl t, .refl t⟩
  | tail _ hstep ih =>
    obtain ⟨x, e, es, rfl⟩ := hstep
    obtain ⟨hu, hlives, hkinds⟩ := ih
    exact ⟨(Edit.runFrom_edited hu x e es).linked, hlives.trans (Edit.runFrom_lives hu x e es),
      hkinds.trans (Edit.runFrom_keepsKinds hu x e es) hlives.size⟩

/-- Putting a literal in the place of a node changes the tree only if the literal is made and takes the
place. -/
theorem putLiteral_changes {s : SyntaxTree} (ht : t.Linked)
    (h : ((putLiteral s n sort text).perform.runFrom x t []).tree.revision ≠ t.revision) :
    ∃ m v, t.create? ⟨.literal sort text, s.span n, none, [], []⟩ = .ok (m, v) ∧
      (Change.replace n m).appliedTo? v = some ((putLiteral s n sort text).perform.runFrom x t []).tree := by
  simp only [putLiteral, Plan.perform, Step.performAll, Edit.runFrom_andThen, Step.perform, Edit.make,
    Edit.runFrom, List.map_nil] at h ⊢
  cases hm : t.create? ⟨.literal sort text, s.span n, none, [], []⟩ with
  | error e =>
    rw [hm] at h
    exact absurd rfl h
  | ok made =>
    obtain ⟨m, v⟩ := made
    rw [hm] at h
    simp only at h ⊢
    have hchange : (Commit.replace n (.new 0)).change ([] ++ [m]) = .replace n m := rfl
    rw [hchange] at h ⊢
    cases hv : (Change.replace n m).appliedTo? v with
    | none =>
      rw [hv] at h
      exact absurd (ht.create? hm).grown.revision h
    | some u => exact ⟨m, v, rfl, by rw [hv]⟩

/-- The rule changes a tree only where a literal of a whole number is, and by grouping its digits. -/
theorem underscores_rewrites (ht : t.Linked) (h : numericLiteralUnderscores.Rewrites x t n) :
    ∃ sort text grouped m v, t.kind n = .literal sort text ∧ groupDigits? text = some grouped ∧
      t.create? ⟨.literal sort grouped, t.span n, none, [], []⟩ = .ok (m, v) ∧
      (Change.replace n m).appliedTo? v = some ((numericLiteralUnderscores.act n).runFrom x t []).tree := by
  have hrev := h.2
  simp only [numericLiteralUnderscores, Rule.ofPlan, Edit.runFrom] at hrev ⊢
  cases hp : numericLiteralUnderscores.planAt ⟨t, x.resolver, x.rule, x.pass⟩ n with
  | none =>
    rw [hp] at hrev
    exact absurd rfl hrev
  | some p =>
    rw [hp] at hrev
    simp only [numericLiteralUnderscores.planAt] at hp
    split at hp
    next sort text hk =>
      split at hp
      · obtain ⟨grouped, hg, rfl⟩ := Option.map_eq_some_iff.mp hp
        obtain ⟨m, v, hm, hv⟩ := putLiteral_changes ht hrev
        exact ⟨sort, text, grouped, m, v, hk, hg, hm, hv⟩
      · cases hp
    · cases hp

/-- The tree after the rule has changed it. -/
structure Regrouped (t u : SyntaxTree) (n m : NodeId) : Prop where
  literal : ∃ sort text grouped, t.kind n = .literal sort text ∧ groupDigits? text = some grouped ∧
    u.kind m = .literal sort grouped
  value : u.intLiteral? m = t.intLiteral? n
  found : Session.follow u n = some m
  dead : u.Dead n

/-- The rule leaves a literal with its digits in groups in the place of the node. -/
theorem exists_regrouped (ht : t.Linked) (h : numericLiteralUnderscores.Rewrites x t n) :
    ∃ m, Regrouped t ((numericLiteralUnderscores.act n).runFrom x t []).tree n m := by
  obtain ⟨sort, text, grouped, m, v, hk, hg, hm, hu⟩ := underscores_rewrites ht h
  have hmade := ht.create? hm
  have hlt : m < v.size := by
    rw [hmade.size, hmade.fresh]
    exact Nat.lt_succ_self _
  have hkind : v.kind m = .literal sort grouped := by rw [kind, hmade.node]
  have hkm := (hmade.linked.keepsKinds_appliedTo? hu m hlt).trans hkind
  obtain ⟨hfound, hatt⟩ := hmade.linked.successor?_site hu rfl rfl
  obtain ⟨-, hn, -⟩ := hmade.linked.replace?_cases hu
  have hsize := (hmade.linked.lives_appliedTo? hu).size
  have hdead := hmade.linked.ousted hu rfl
  refine ⟨m, ⟨sort, text, grouped, hk, hg, hkm⟩, ?_, ?_, (lt_of_alive (attached_alive hn)).trans_le hsize, hdead⟩
  · rw [intLiteral?, intLiteral?, hk, hkm]
    cases sort with
    | int => exact intValue?_grouped hg
    | _ => rfl
  · exact Option.filter_eq_some_iff.mpr ⟨hfound, hatt⟩

/-- A node that is dead, or a literal with an underscore in it, is left alone. -/
theorem not_rewrites (hv : v.Linked)
    (h : v.Dead k ∨ ∃ sort text, v.kind k = .literal sort text ∧ '_' ∈ text.toList) :
    ¬ numericLiteralUnderscores.Rewrites y v k := by
  intro hr
  obtain ⟨sort, text, grouped, m, w, hk, hg, hm, hu⟩ := underscores_rewrites hv hr
  obtain hdead | ⟨sort', text', hk', hunder⟩ := h
  · have hw := hv.create? hm
    obtain ⟨-, hatt, -⟩ := hw.linked.replace?_cases hu
    have halive := hw.grown.isAlive hdead.1
    rw [attached_alive hatt, hdead.2] at halive
    cases halive
  · rw [hk'] at hk
    cases hk
    rw [groupDigits?_of_underscore hunder] at hg
    cases hg

/-- Digits are grouped in threes from the right, exactly where a plain number is spelled; the underscores
are all that is new, and what is grouped is not grouped again. So the rule keeps the value of the literal
that it changes, and whatever programs do to the tree afterwards, it changes neither that literal again nor
the one that took its place, nor any other one with an underscore. -/
theorem grouping_keeps_numbers :
    (∀ text, (groupDigits? text).isSome = true ↔
      ∃ digits suffix, text.toList = digits ++ suffix ∧ Plain digits suffix) ∧
    (∀ text grouped, groupDigits? text = some grouped → GroupsTo text grouped) ∧
    ∀ (t : SyntaxTree) (n : NodeId) (x : Edit.Setting), t.Linked → numericLiteralUnderscores.Rewrites x t n →
      ∃ m, Regrouped t ((numericLiteralUnderscores.act n).runFrom x t []).tree n m ∧
        ∀ v, Reworked ((numericLiteralUnderscores.act n).runFrom x t []).tree v → ∀ k y,
          (k = n ∨ k = m ∨ ∃ sort text, v.kind k = .literal sort text ∧ '_' ∈ text.toList) →
          ¬ numericLiteralUnderscores.Rewrites y v k := by
  refine ⟨fun _ => groupDigits?_isSome, fun _ _ => groupsTo_of_groupDigits?, fun t n x ht h => ?_⟩
  obtain ⟨m, hm⟩ := exists_regrouped ht h
  refine ⟨m, hm, fun v hv k y hk => ?_⟩
  obtain ⟨hvl, hlives, hkinds⟩ := hv.kept (Edit.runFrom_edited ht x _ []).linked
  refine not_rewrites hvl ?_
  obtain rfl | rfl | hk := hk
  · exact .inl ⟨hm.dead.1.trans_le hlives.size, hlives.dead hm.dead.1 hm.dead.2⟩
  · obtain ⟨sort, text, grouped, -, hg, hgrouped⟩ := hm.literal
    have hlt := lt_of_alive (attached_alive (Option.filter_eq_some_iff.mp hm.found).2)
    exact .inr ⟨sort, grouped, (hkinds k hlt).trans hgrouped, underscore_of_groupDigits? hg⟩
  · exact .inr hk

/-- A number is the root. -/
def loneNumber : SyntaxTree :=
  history 1 [.create ⟨.literal .int "1234567", Span.none, none, [], []⟩, .setRoot 0]

/-- It is grouped, and then it is left alone. -/
theorem loneNumber_keeps_number : groupDigits? "1234567" = some "1_234_567" ∧ GroupsTo "1234567" "1_234_567" ∧
    loneNumber.Linked ∧ numericLiteralUnderscores.Rewrites ⟨.unresolved, "", 1⟩ loneNumber 0 ∧
    ∃ m, Regrouped loneNumber
        ((numericLiteralUnderscores.act 0).runFrom ⟨.unresolved, "", 1⟩ loneNumber []).tree 0 m ∧
      ¬ numericLiteralUnderscores.Rewrites ⟨.unresolved, "", 1⟩
        ((numericLiteralUnderscores.act 0).runFrom ⟨.unresolved, "", 1⟩ loneNumber []).tree m := by
  have hgroups : groupDigits? "1234567" = some "1_234_567" := by decide
  have hlinked : loneNumber.Linked := linked_history 1 _
  have hrewrites : numericLiteralUnderscores.Rewrites ⟨.unresolved, "", 1⟩ loneNumber 0 := ⟨rfl, by decide⟩
  obtain ⟨-, htexts, htrees⟩ := grouping_keeps_numbers
  obtain ⟨m, hm, hnever⟩ := htrees _ _ _ hlinked hrewrites
  exact ⟨hgroups, htexts _ _ hgroups, hlinked, hrewrites, m, hm, hnever _ .refl _ _ (.inr (.inl rfl))⟩

end Trees

end TreeTidy.Rules
