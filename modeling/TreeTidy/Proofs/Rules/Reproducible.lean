import TreeTidy.Proofs.Engine.Lockstep
import TreeTidy.Proofs.Rules.Acceptance
import TreeTidy.Proofs.Rules.RenamedExpressions
import TreeTidy.Proofs.Rules.RenamedStatements
import TreeTidy.Proofs.Tree.Settled
import TreeTidy.Tree.Load
/-!
Sessions of the library depend on documents alone. The numbers of the nodes make no difference, nor does
anything else that a tree holds: every tree with the document is the compact one under a renaming, on which
each rule does the same.

Trees come about by public operations from empty ones, with copies of whole trees on the way; those of units
that are built are among them.
-/
namespace TreeTidy

namespace SyntaxTree

variable {t u : SyntaxTree}

/-- The tree comes about by public operations. A copy has an identity of its own. -/
inductive Arises : SyntaxTree → Prop
  | empty (id : Nat) : Arises (.empty id)
  | perform {t : SyntaxTree} (h : Arises t) (op : Operation) : Arises (op.perform t)
  | fork {t : SyntaxTree} (h : Arises t) (id : Nat) : Arises (t.fork id)

namespace Arises

theorem orderly (h : t.Arises) : t.Orderly := by
  induction h with
  | empty id => exact orderly_empty id
  | perform _ op ih => exact ih.perform op
  | fork _ id ih => exact ih.fork id

theorem foldl_perform (h : t.Arises) (ops : List Operation) : (ops.foldl Operation.perform t).Arises := by
  induction ops generalizing t with
  | nil => exact h
  | cons op ops ih => exact ih (h.perform op)

theorem create? {spec : NodeSpec} {n : NodeId} (h : t.Arises) (hc : t.create? spec = .ok (n, u)) :
    u.Arises := by
  have hp := h.perform (.create spec)
  rwa [Operation.perform, hc] at hp

theorem setRoot? {n : NodeId} (h : t.Arises) (hs : t.setRoot? n = .ok u) : u.Arises := by
  have hp := h.perform (.setRoot n)
  rwa [Operation.perform, hs] at hp

mutual

theorem build {t : SyntaxTree} (h : t.Arises) (place : DocPath) (d : Doc) : (t.build place d).2.Arises := by
  cases d with
  | node kind span ty slots list =>
    have hs := buildSlots h place 0 slots
    rw [SyntaxTree.build]
    split
    next hb => rwa [hb] at hs
    next ns u hb =>
      rw [hb] at hs
      have hl := buildList hs place 0 list
      split
      next hb => rwa [hb] at hl
      next ms v hb =>
        rw [hb] at hl
        split
        · exact hl
        next n w hc => exact hl.create? hc

theorem buildSlots {t : SyntaxTree} (h : t.Arises) (place : DocPath) (i : Nat) (slots : List (Option Doc)) :
    (t.buildSlots place i slots).2.Arises := by
  match slots with
  | [] =>
    rw [SyntaxTree.buildSlots]
    exact h
  | none :: slots =>
    have hs := buildSlots h place (i + 1) slots
    rw [SyntaxTree.buildSlots]
    split <;> next hb => rwa [hb] at hs
  | some d :: slots =>
    have hd := build h (place ++ [.slot i]) d
    rw [SyntaxTree.buildSlots]
    split
    next hb => rwa [hb] at hd
    next n u hb =>
      rw [hb] at hd
      have hs := buildSlots hd place (i + 1) slots
      split <;> next hb => rwa [hb] at hs

theorem buildList {t : SyntaxTree} (h : t.Arises) (place : DocPath) (i : Nat) (list : List Doc) :
    (t.buildList place i list).2.Arises := by
  match list with
  | [] =>
    rw [SyntaxTree.buildList]
    exact h
  | d :: list =>
    have hd := build h (place ++ [.list i]) d
    rw [SyntaxTree.buildList]
    split
    next hb => rwa [hb] at hd
    next n u hb =>
      rw [hb] at hd
      have hs := buildList hd place (i + 1) list
      split <;> next hb => rwa [hb] at hs

end

end Arises

theorem arises_history (id : Nat) (ops : List Operation) : (history id ops).Arises :=
  (Arises.empty id).foldl_perform ops

end SyntaxTree

theorem SourceUnit.ofDoc_arises {id : Nat} {d : UnitDoc} {u : SourceUnit} (h : ofDoc id d = .ok u) :
    u.tree.Arises := by
  have hb := (SyntaxTree.Arises.empty id).build [] d.root
  rw [ofDoc] at h
  split at h
  · cases h
  next n t hbuilt =>
    rw [hbuilt] at hb
    split at h
    · cases h
    next hroot =>
      cases h
      exact hb.setRoot? hroot

open SyntaxTree

/-- What shows of a session: its outcome, what its events say, and the document that it leaves. -/
structure Report where
  outcome : RunOutcome
  texts : List String
  doc : Option Doc
  deriving Repr

def Session.Result.report (r : Session.Result) : Report :=
  ⟨r.outcome, r.events.map Event.text, r.tree.rootDoc?⟩

def Tidied.report (r : Tidied) : Report := ⟨r.outcome, r.events.map Event.text, r.unit.tree.rootDoc?⟩

namespace Session

variable {classes : ClassTable} {rules : List Rule} {res res' : Resolver} {u t : SyntaxTree}

theorem Result.Alike.report {g : NodeId → NodeId} {k : Nat} {r r' : Result} (h : Result.Alike g k r r') :
    r'.report = r.report := by
  rw [Result.report, Result.report, h.outcome, h.texts, h.tree.rootDoc? h.linked]

/-- Sessions on trees with the same document report the same. -/
theorem report_run (hr : ∀ r ∈ rules, r.Blind classes) (hres : res.Faithful classes)
    (hres' : res'.Faithful classes) (hu : u.Orderly) (ht : t.Orderly) (hd : t.rootDoc? = u.rootDoc?)
    (limits : Limits) (fuel : Nat) :
    (run rules res' limits fuel t).map Result.report = (run rules res limits fuel u).map Result.report := by
  obtain ⟨v, hv, hvd⟩ := exists_compact u.rootDoc?
  have hvo : v.Orderly := ⟨hv.linked, hv.admitted hu.linked hu.admitted hvd.symm, hv.settled⟩
  -- both sessions go as one on the compact tree does
  have key : ∀ {s : SyntaxTree} {r : Resolver}, s.Orderly → s.rootDoc? = u.rootDoc? → r.Faithful classes →
      (run rules r limits fuel s).map Result.report = (run rules res limits fuel v).map Result.report := by
    intro s r hs hsd hf
    obtain ⟨g, hg⟩ := hv.renamed hs.linked hs.settled (hsd.trans hvd.symm)
    have hrun := run_alike hr hres hf limits fuel hg hvo hs
    generalize run rules res limits fuel v = o at hrun
    generalize run rules r limits fuel s = o' at hrun
    cases hrun with
    | none => rfl
    | some h => exact congrArg some h.report
  rw [key ht hd hres', key hu rfl hres]

end Session

namespace Rules

variable {classes : ClassTable}

/-- A rule that plans the same for corresponding nodes does the same. -/
theorem blind_ofPlan {info : RuleInfo} {granularity : Granularity} {planAt : View → NodeId → Option Plan}
    (h : ∀ {g : NodeId → NodeId} {k : Nat} {v w : View}, View.Renamed g k v w →
      ∀ n, v.tree.isAttached n = true → Mirrored g (planAt v n) (planAt w (g n))) :
    (Rule.ofPlan info granularity planAt).Blind classes where
  alike {g k u t es es' n x y} hx hy hrule hpass hr hu ht hn hes := by
    have hm := h (v := ⟨u, x.resolver, x.rule, x.pass⟩) (w := ⟨t, y.resolver, y.rule, y.pass⟩)
      ⟨hr, hu, ht, classes, hx, hy⟩ n hn
    simp only [Rule.ofPlan, Edit.runFrom]
    generalize planAt ⟨u, x.resolver, x.rule, x.pass⟩ n = p at hm
    generalize planAt ⟨t, y.resolver, y.rule, y.pass⟩ (g n) = p' at hm
    cases hm with
    | none => exact ⟨rfl, hr, hes⟩
    | some hp => exact hp.alike hr hu ht hrule hpass hes
  whole {u es n x m} hu he := by
    simp only [Rule.ofPlan, Edit.runFrom] at he ⊢
    cases hp : planAt ⟨u, x.resolver, x.rule, x.pass⟩ n with
    | none => rfl
    | some p =>
      rw [hp] at he
      exact Plan.revision_of_error hu he

theorem blind_all : ∀ r ∈ all, r.Blind classes := by
  simp only [all, List.forall_mem_cons]
  exact ⟨blind_ofPlan fun h n _ => doubleNegation_mirrored h n,
    blind_ofPlan booleanLiteralComparison_mirrored,
    blind_ofPlan negatedComparison_mirrored,
    blind_ofPlan fun h n _ => redundantParentheses_mirrored h n,
    blind_ofPlan fun h n _ => nullLiteralOnRight_mirrored h n,
    blind_ofPlan literalsFirstInComparisons_mirrored,
    blind_ofPlan stringIsEmpty_mirrored,
    blind_ofPlan stringToString_mirrored,
    blind_ofPlan stringIndexOfChar_mirrored,
    blind_ofPlan stringReplaceAllLiteral_mirrored,
    blind_ofPlan stringFromString_mirrored,
    blind_ofPlan fun h n _ => primitiveWrapperInstantiation_mirrored h n,
    blind_ofPlan boxedPrimitiveToString_mirrored,
    blind_ofPlan primitiveObjectsEquals_mirrored,
    blind_ofPlan collectionIsEmpty_mirrored,
    blind_ofPlan optionalNotEmpty_mirrored,
    blind_ofPlan streamForEach_mirrored,
    blind_ofPlan fun h n _ => longLiteralSuffix_mirrored h n,
    blind_ofPlan fun h n _ => numericLiteralUnderscores_mirrored h n,
    blind_ofPlan fun h n _ => lambdaParenthesesRemoval_mirrored h n,
    blind_ofPlan fun h n _ => lambdaReturnsSingleStatement_mirrored h n,
    blind_ofPlan lambdaIsMethodReference_mirrored,
    blind_ofPlan conditionalAssignmentToTernary_mirrored,
    blind_ofPlan unnecessaryLocalBeforeReturn_mirrored,
    blind_ofPlan fun h n _ => simplifyBooleanReturn_mirrored h n,
    blind_ofPlan fun h n _ => emptyStatement_mirrored h n,
    blind_ofPlan fun h n _ => localVariableTypeInference_mirrored h n,
    blind_ofPlan fun h n _ => useDiamondOperator_mirrored h n,
    blind_ofPlan fun h n _ => unnecessaryModifier_mirrored h n,
    blind_ofPlan fun h n _ => removeExplicitSuperCall_mirrored h n,
    blind_ofPlan fun h n _ => unnecessaryImport_mirrored h n,
    blind_ofPlan fun h n _ => unnecessaryFullyQualifiedName_mirrored h n, List.forall_mem_nil _⟩

theorem IsStandard.blind {r : Rule} (h : IsStandard r) : r.Blind classes := by
  obtain ⟨q, hq, after, before, rfl⟩ := h
  have hb : q.Blind classes := blind_all q hq
  exact ⟨hb.alike, hb.whole⟩

variable {u t : SourceUnit} {c : Catalog} {sel : Selection} {table : Timetable}

/-- For units of one level and with the same classes and documents, however their trees came about, and for
every selection that can be scheduled, sessions report the same. They do so too if the resolver keeps its
answers, in whatever state its cache is at each question; and if the document keeps to the layouts, then
with enough fuel there is a report. -/
theorem report_of_document (hu : u.tree.Arises) (ht : t.tree.Arises) (hlevel : t.level = u.level)
    (hclasses : t.classes = u.classes) (hdoc : t.tree.rootDoc? = u.tree.rootDoc?) (hc : catalog? = .ok c)
    (htable : Timetable.ofSelection c sel = .ok table) (limits : Limits) :
    (∀ fuel, (t.tidy table limits fuel).map Tidied.report = (u.tidy table limits fuel).map Tidied.report) ∧
    (∀ now : SyntaxTree → NodeId → TypeCache,
      (∀ s n, s.Orderly → Forest.Known (Library.classes.insertAll u.classes) (now s n) s) →
      ∀ fuel, (Session.run (table.scheduleAt t.level).rules
        (.caching (Library.classes.insertAll t.classes) now) limits fuel t.tree).map Session.Result.report =
          (u.tidy table limits fuel).map Tidied.report) ∧
    (u.tree.Laid → ∃ least report, ∀ fuel, least ≤ fuel →
      (u.tidy table limits fuel).map Tidied.report = some report) := by
  have hr := isStandard_of_scheduled hc htable u.level
  have hblind : ∀ r ∈ (table.scheduleAt u.level).rules,
      r.Blind (Library.classes.insertAll u.classes) := fun r hmem => (hr r hmem).blind
  have hfresh := Resolver.faithful_scope (Library.classes.insertAll u.classes)
  have hreport : ∀ (s : SourceUnit) fuel, (s.tidy table limits fuel).map Tidied.report =
      (Session.run (table.scheduleAt s.level).rules (Resolver.ofClasses s.classes) limits fuel
        s.tree).map Session.Result.report := by
    intro s fuel
    rw [SourceUnit.tidy, Option.map_map]
    rfl
  refine ⟨fun fuel => ?_, fun now hnow fuel => ?_, fun hl => ?_⟩
  · rw [hreport, hreport, hlevel, hclasses]
    exact Session.report_run hblind hfresh hfresh hu.orderly ht.orderly hdoc limits fuel
  · rw [hreport, hlevel, hclasses]
    exact Session.report_run hblind hfresh (Resolver.faithful_caching hnow) hu.orderly ht.orderly hdoc
      limits fuel
  · obtain ⟨least, r, h⟩ := run_ends hr ⟨hu.orderly.linked, hl⟩ (Resolver.ofClasses u.classes) limits
    exact ⟨least, r.report, fun fuel hf => by rw [hreport, h fuel hf, Option.map_some]⟩

/-- A unit whose only import is one that no unit has to state. -/
def importing : UnitDoc := ⟨"T.java", .standard, [], .plain (.compilationUnit none)
  [some (.plain .importList [] [.plain (.importDecl "java.lang" false true) [] []])] []⟩

/-- The same unit after another import was replaced, and with a name besides that stands nowhere. -/
def usedUnit : SourceUnit := ⟨"T.java", .standard, [], history 2
  [.create ⟨.importDecl "a.B" false false, Span.none, none, [], []⟩,
    .create ⟨.importList, Span.none, none, [], [0]⟩,
    .create ⟨.compilationUnit none, Span.none, none, [some 1], []⟩, .setRoot 2,
    .create ⟨.nameExpr "x", Span.none, none, [], []⟩,
    .create ⟨.importDecl "java.lang" false true, Span.none, none, [], []⟩, .change (.replace 0 4)]⟩

/-- The import is taken away from the unit as it is loaded and from the used one, also if the resolver was
asked everything before. -/
theorem usedUnit_reports : ∃ u c report, SourceUnit.ofDoc 1 importing = .ok u ∧ catalog? = .ok c ∧
    Timetable.ofSelection c importsOnly = .ok importsTable ∧ usedUnit.tree.size ≠ u.tree.size ∧
    usedUnit.tree.revision ≠ u.tree.revision ∧ report.outcome = ⟨true, true, 1, 1⟩ ∧
    (u.tidy importsTable .standard 4).map Tidied.report = some report ∧
    (usedUnit.tidy importsTable .standard 4).map Tidied.report = some report ∧
    (Session.run (importsTable.scheduleAt .standard).rules (.caching (Library.classes.insertAll [])
      fun s n => (TypeCache.typeOf ⟨s.id + 1, 0, []⟩ (Library.classes.insertAll []) s n).2) .standard 4
      usedUnit.tree).map Session.Result.report = some report := by
  obtain ⟨bs, hc⟩ := exists_catalog
  have htable := ofSelection_importsOnly bs
  have hload : SourceUnit.ofDoc 1 importing = .ok ⟨"T.java", .standard, [], _⟩ := rfl
  obtain ⟨halike, hcaching, -⟩ := report_of_document (SourceUnit.ofDoc_arises hload)
    (t := usedUnit) (arises_history _ _) rfl rfl rfl hc htable .standard
  refine ⟨_, _, ⟨_, _, _⟩, hload, hc, htable, by decide, by decide, rfl, rfl, (halike 4).trans rfl, ?_⟩
  refine (hcaching _ (fun s n hs => ?_) 4).trans rfl
  exact ((Forest.Known.of_ne (Nat.ne_of_lt (Nat.lt_succ_self s.id))).typeOf hs n).2

end Rules

end TreeTidy
