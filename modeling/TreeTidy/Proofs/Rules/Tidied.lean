import TreeTidy.Proofs.Print.Text
import TreeTidy.Proofs.Rules.Acceptance
import TreeTidy.Proofs.Tree.Rebuilt
/-!
Tidied units, written and read again. The rules keep all that a text can hold but the depth: what is
wrapped into new nodes nests deeper than before, and a text that nests too deeply is refused.
-/
namespace TreeTidy

open SyntaxTree

theorem Span.Bounded.cover {a b : Span} (ha : a.Bounded) (hb : b.Bounded) : (a.cover b).Bounded :=
  ⟨Nat.lt_of_le_of_lt (Nat.min_le_left _ _) ha.1, Nat.max_lt.mpr ⟨ha.2, hb.2⟩⟩

namespace SourceUnit

variable {u : SourceUnit}

theorem Regular.rootDoc? (h : u.Regular) : u.tree.rootDoc? = some u.toDoc.root := by
  obtain ⟨r, hr⟩ := Option.isSome_iff_exists.mp h.rooted
  have hd : u.tree.rootDoc? = some (u.tree.doc r) := by rw [SyntaxTree.rootDoc?, hr, Option.map_some]
  rw [toDoc, hd]
  rfl

/-- The source text of a regular unit is that of its document. -/
theorem Regular.print (h : u.Regular) : u.tree.print = u.toDoc.root.print := by
  rw [SyntaxTree.print, h.rootDoc?]
  rfl

/-- Spans that come of those in a regular unit are in range. -/
theorem Regular.bounded_spanned (h : u.Regular) {s : Span} (hs : u.tree.Spanned s) : s.Bounded := by
  induction hs with
  | @own n hn =>
    obtain ⟨r, hr, hnr⟩ := h.sound.linked.isAttached_iff.mp hn
    have hroot : u.toDoc.root = u.tree.doc r :=
      Option.some.inj (h.rootDoc?.symm.trans (congrArg (Option.map u.tree.doc) hr))
    have hb := h.bounded.root
    rw [hroot] at hb
    have hall := (h.sound.linked.forall_parts (P := fun x => x.span.Bounded)).mp hb n hnr
    rwa [h.sound.linked.span_doc] at hall
  | cover _ _ iha ihb => exact iha.cover ihb

end SourceUnit

namespace Rules

open Session

variable {rules : List Rule} {res : Resolver} {limits : Limits} {fuel : Nat} {s : State} {t v : SyntaxTree}
  {u : SourceUnit}

/-- A session does nothing to the tree but rewrite it. -/
theorem rewriting_of_runFrom (hr : ∀ r ∈ rules, IsStandard r) {left : Nat} {o : RunOutcome} {r : Result}
    (hs : s.tree.Sound) (h : runFrom rules res limits fuel left o s = some r) :
    Relation.ReflTransGen (Rewriting res) s.tree r.tree := by
  induction left generalizing o s with
  | zero =>
    rw [runFrom, finish] at h
    obtain ⟨converged, -, rfl⟩ := Option.map_eq_some_iff.mp h
    exact .refl
  | succ left ih =>
    rw [runFrom] at h
    split at h
    · cases h
    next s₁ hp =>
      have hturns := pass_turns (tame hr res) hs hp
      have hrw := (rewriting_of_turns hr hturns hs).1
      split at h
      · cases h
        exact hrw
      · exact hrw.trans (ih (Turns.kept (tame hr res) hturns hs).1 h)

/-- Rewriting keeps a tree sound and with a root, and makes up no span. -/
theorem kept_of_rewriting (h : Relation.ReflTransGen (Rewriting res) t v) (ht : t.Sound)
    (hroot : t.root.isSome) : v.Sound ∧ v.root.isSome ∧ ∀ s, v.Spanned s → t.Spanned s := by
  induction h with
  | refl => exact ⟨ht, hroot, fun _ h => h⟩
  | tail _ hstep ih =>
    obtain ⟨hs, -, hspan⟩ := ih
    have hrw := hstep.rewritten hs
    obtain ⟨-, e, -, he, -⟩ := hrw.less
    refine ⟨hstep.sound hs, ?_, fun s h => hspan s (hrw.spanned s h)⟩
    rw [← Option.isSome_map, ← SyntaxTree.rootDoc?, he]
    rfl

theorem regular_of_rewriting (hu : u.Regular) (h : Relation.ReflTransGen (Rewriting res) u.tree v) :
    SourceUnit.Regular { u with tree := v } := by
  obtain ⟨hs, hroot, hspan⟩ := kept_of_rewriting h hu.sound hu.rooted
  refine ⟨hs, hroot, hu.bounded.level, hu.bounded.classes, ?_⟩
  obtain ⟨r, hr⟩ := Option.isSome_iff_exists.mp hroot
  have hd : v.rootDoc? = some (v.doc r) := by rw [SyntaxTree.rootDoc?, hr, Option.map_some]
  simp only [SourceUnit.toDoc, hd, Option.getD_some]
  exact (hs.linked.spans_doc (hs.linked.attached_root hr)).mono fun x hx => hu.bounded_spanned (hspan _ hx)

variable {id : Nat} {text : String} {c : Catalog} {sel : Selection} {table : Timetable}

/-- A unit that was read is still regular when it has been tidied. -/
theorem regular_tidied (hu : SourceUnit.read id text = .ok u) (hc : catalog? = .ok c)
    (ht : Timetable.ofSelection c sel = .ok table) {r : Tidied} (h : u.tidy table limits fuel = some r) :
    r.unit.Regular := by
  have hreg := (SourceUnit.regular_of_read hu).1
  obtain ⟨result, hrun, rfl⟩ := Option.map_eq_some_iff.mp h
  exact regular_of_rewriting hreg (rewriting_of_runFrom (s := ⟨u.tree, [], [], 0⟩)
    (isStandard_of_scheduled hc ht u.level) hreg.sound hrun)

/-- For every text that is read as a unit and every selection that can be scheduled, the session comes to
its end. What the tidied unit is written as is read again if it nests no deeper than texts may, with the
same document, but for the spans with nothing in them, and the same source text; else it is refused. -/
theorem tidied_reads_back (hu : SourceUnit.read id text = .ok u) (hc : catalog? = .ok c)
    (ht : Timetable.ofSelection c sel = .ok table) (limits : Limits) (id' : Nat) :
    (∃ least r, ∀ fuel, least ≤ fuel → u.tidy table limits fuel = some r) ∧
    ∀ fuel r, u.tidy table limits fuel = some r →
      (r.unit.toDoc.toJson.depth ≤ Json.roomOfText → ∃ u', SourceUnit.read id' r.unit.write = .ok u' ∧
        u'.toDoc = r.unit.toDoc.normal ∧ u'.tree.print = r.unit.tree.print) ∧
      (Json.roomOfText < r.unit.toDoc.toJson.depth →
        SourceUnit.read id' r.unit.write = .error (.refused .malformed)) := by
  constructor
  · obtain ⟨least, r, h⟩ := run_ends (isStandard_of_scheduled hc ht u.level)
      (SourceUnit.regular_of_read hu).1.sound (Resolver.ofClasses u.classes) limits
    refine ⟨least, ⟨{ u with tree := r.tree }, r.outcome, r.events⟩, ?_⟩
    intro fuel hf
    rw [SourceUnit.tidy, h fuel hf]
    rfl
  · intro fuel r h
    have hr := regular_tidied hu hc ht h
    refine ⟨fun hd => ?_, hr.read_write_error⟩
    obtain ⟨u', hread, hdoc⟩ : ∃ u', SourceUnit.read id' _ = .ok u' ∧ u'.toDoc = _ := hr.read_write_ok hd
    refine ⟨u', hread, hdoc, ?_⟩
    rw [(SourceUnit.regular_of_read hread).1.print, hdoc, hr.print]
    exact Doc.print_normal _

section Deep

/-- The type of arrays with so many dimensions. -/
def arrayOf : Nat → TypeDesc
  | 0 => .primitive .int
  | n + 1 => .array (arrayOf n)

/-- `a && b == false` with the comparison outermost. The type that is stated for `a` makes the text nest as
deep as wanted. -/
def comparison (dimensions : Nat) : UnitDoc where
  path := "T.java"
  level := .standard
  classes := []
  root := .plain (.binary .eq) [some (.plain (.binary .and)
    [some (.node (.nameExpr "a") .none (some (arrayOf dimensions)) [] []),
      some (.plain (.nameExpr "b") [] [])] []), some (.plain (.literal .boolean "false") [] [])] []

/-- Takes the rule for comparisons with boolean literals and no other. -/
def comparisonsOnly : Selection := { Selection.standard with taken := ["BooleanLiteralComparison"] }

/-- That rule at every level from the lowest on for which there are rules. -/
def comparisonsTable : Timetable :=
  ⟨⟨[], []⟩, [5, 6, 7, 8, 10, 11].map fun level => (level, ⟨[booleanLiteralComparison], []⟩)⟩

theorem ofSelection_comparisonsOnly (bs : List Bundle) :
    Timetable.ofSelection ⟨byId, bs⟩ comparisonsOnly = .ok comparisonsTable := by
  cbv

theorem bounded_comparison (dimensions : Nat) : (comparison dimensions).Bounded where
  level := show 8 < Numeral.bound 16 by decide
  classes := List.forall_mem_nil _
  root := by
    have leaf : ∀ kind ty, (Doc.node kind .none ty [] []).Bounded := fun kind ty =>
      Doc.all_node Span.bounded_none (fun _ h => absurd h List.not_mem_nil) (List.forall_mem_nil _)
    have pair : ∀ kind a b, Doc.Bounded a → Doc.Bounded b → (Doc.plain kind [some a, some b] []).Bounded := by
      intro kind a b ha hb
      refine Doc.all_node Span.bounded_none ?_ (List.forall_mem_nil _)
      simp only [List.mem_cons, Option.some.injEq, List.not_mem_nil, or_false]
      rintro c (rfl | rfl)
      · exact ha
      · exact hb
    exact pair _ _ _ (pair _ _ _ (leaf _ _) (leaf _ _)) (leaf _ _)

/-- What comes of tidying the comparison: how deep it nests then, and its text. -/
def tidiedComparison (dimensions : Nat) : Option (Nat × String) :=
  (SourceUnit.ofDoc 1 (comparison dimensions).reread).toOption.bind fun u =>
    (u.tidy comparisonsTable .standard 10).map fun r => (r.unit.toDoc.toJson.depth, r.unit.tree.print)

theorem tidy_comparison {dimensions depth : Nat} {printed : String}
    (hd : (comparison dimensions).toJson.depth ≤ Json.roomOfText)
    (h : tidiedComparison dimensions = some (depth, printed)) :
    ∃ u r, SourceUnit.read 1 (comparison dimensions).write = .ok u ∧
      u.tidy comparisonsTable .standard 10 = some r ∧ r.unit.toDoc.toJson.depth = depth ∧
      r.unit.tree.print = printed := by
  have hread : UnitDoc.read (comparison dimensions).write = .ok (comparison dimensions).reread := by
    rw [UnitDoc.read_write _ (bounded_comparison dimensions)]
    exact if_pos hd
  simp only [tidiedComparison, Option.bind_eq_some_iff, Option.map_eq_some_iff, Prod.mk.injEq] at h
  obtain ⟨u, hu, r, hr, hdepth, hp⟩ := h
  have hu' : SourceUnit.ofDoc 1 (comparison dimensions).reread = .ok u := by
    cases he : SourceUnit.ofDoc 1 (comparison dimensions).reread <;> rw [he] at hu <;> cases hu
    rfl
  exact ⟨u, r, by rw [SourceUnit.read, hread]; exact hu', hr, hdepth, hp⟩

/-- With two dimensions less than a text has room for, the negation can still be read. -/
theorem negatedComparison_reads_back : ∃ u c r u', SourceUnit.read 1 (comparison 118).write = .ok u ∧
    catalog? = .ok c ∧ Timetable.ofSelection c comparisonsOnly = .ok comparisonsTable ∧
    u.tidy comparisonsTable .standard 10 = some r ∧ SourceUnit.read 2 r.unit.write = .ok u' ∧
    u'.toDoc = r.unit.toDoc.normal ∧ u'.tree.print = "!(a && b)" := by
  obtain ⟨u, r, hu, hr, hdepth, hp⟩ := tidy_comparison (by decide +kernel)
    (show tidiedComparison 118 = some (127, "!(a && b)") by decide +kernel)
  obtain ⟨bs, hc⟩ := exists_catalog
  have ht := ofSelection_comparisonsOnly bs
  obtain ⟨u', hread, hdoc, hprint⟩ :=
    ((tidied_reads_back hu hc ht .standard 2).2 10 r hr).1 (hdepth ▸ le_refl 127)
  exact ⟨u, _, r, u', hu, hc, ht, hr, hread, hdoc, hprint.trans hp⟩

/-- A text with no room left is read and tidied, and the negation that is written is refused. -/
theorem negatedComparison_refused : ∃ u c r, SourceUnit.read 1 (comparison 120).write = .ok u ∧
    catalog? = .ok c ∧ Timetable.ofSelection c comparisonsOnly = .ok comparisonsTable ∧
    u.tidy comparisonsTable .standard 10 = some r ∧
    SourceUnit.read 2 r.unit.write = .error (.refused .malformed) := by
  obtain ⟨u, r, hu, hr, hdepth, -⟩ := tidy_comparison (by decide +kernel)
    (show tidiedComparison 120 = some (129, "!(a && b)") by decide +kernel)
  obtain ⟨bs, hc⟩ := exists_catalog
  have ht := ofSelection_comparisonsOnly bs
  exact ⟨u, _, r, hu, hc, ht, hr, (regular_tidied hu hc ht hr).read_write_error (hdepth ▸ by decide)⟩

end Deep

end Rules

end TreeTidy
