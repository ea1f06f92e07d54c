import Mathlib.Data.List.Chain
import Mathlib.Data.List.Nodup
import Mathlib.Data.List.Permutation
import TreeTidy.Engine.Schedule
import TreeTidy.Proofs.Rules.Ending
import TreeTidy.Rules.Standard
import TreeTidy.Unit.Tidy
/-!
What sessions of the library report. No rule breaks off, and all edits apply but one: an import that is
the whole unit cannot be taken away, though the rule for imports tries to.

The catalog of the library can be built, since its names are all different and its constraints name rules by
their ids; it holds the rules as they are, by id.
-/
namespace TreeTidy.Rules

section Catalog

def byId : List Rule :=
  [booleanLiteralComparison, boxedPrimitiveToString, collectionIsEmpty,
    conditionalAssignmentToTernary, doubleNegation, emptyStatement, lambdaIsMethodReference,
    lambdaParenthesesRemoval, lambdaReturnsSingleStatement, literalsFirstInComparisons,
    localVariableTypeInference, longLiteralSuffix, negatedComparison, nullLiteralOnRight,
    numericLiteralUnderscores, optionalNotEmpty, primitiveObjectsEquals,
    primitiveWrapperInstantiation, redundantParentheses, removeExplicitSuperCall,
    simplifyBooleanReturn, streamForEach, stringFromString, stringIndexOfChar, stringIsEmpty,
    stringReplaceAllLiteral, stringToString, unnecessaryFullyQualifiedName, unnecessaryImport,
    unnecessaryLocalBeforeReturn, unnecessaryModifier, useDiamondOperator]

theorem perm_byId : all.Perm byId := by
  have h : (List.range 32).Perm [1, 12, 14, 22, 0, 25, 21, 19, 20, 5, 26, 17, 2, 4, 18, 15, 13, 11,
      3, 29, 24, 16, 10, 8, 6, 9, 7, 31, 30, 23, 28, 27] := by decide
  exact h.map fun i => all.getD i doubleNegation

theorem byId_increasing : (byId.map Rule.id).Pairwise (· < ·) := by
  have : Trans (α := String) (· < ·) (· < ·) (· < ·) := ⟨String.lt_trans⟩
  exact List.isChain_iff_pairwise.mp (by decide +kernel)

theorem mergeSort_all : all.mergeSort (fun a b => decide (a.id ≤ b.id)) = byId := by
  have hsorted : (all.mergeSort fun a b => decide (a.id ≤ b.id)).Pairwise
      fun a b => decide (a.id ≤ b.id) = true := by
    refine List.pairwise_mergeSort ?_ ?_ all
    · intro a b c hab hbc
      exact decide_eq_true (String.le_trans (of_decide_eq_true hab) (of_decide_eq_true hbc))
    · intro a b
      simpa using String.le_total a.id b.id
  have hbyId : byId.Pairwise fun a b => decide (a.id ≤ b.id) = true :=
    (List.pairwise_map.mp byId_increasing).imp fun hab =>
      decide_eq_true (String.not_lt.mp fun hba => String.lt_irrefl _ (String.lt_trans hab hba))
  refine List.Perm.eq_of_pairwise ?_ hsorted hbyId
    ((List.mergeSort_perm _ _).trans perm_byId)
  intro a b ha hb hab hba
  have hnodup : (byId.map Rule.id).Nodup := byId_increasing.imp fun {a b} hab he => by
    rw [he] at hab
    exact String.lt_irrefl b hab
  exact List.inj_on_of_nodup_map hnodup (perm_byId.mem_iff.mp (List.mem_mergeSort.mp ha)) hb
    (String.le_antisymm (of_decide_eq_true hab) (of_decide_eq_true hba))

theorem exists_catalog : ∃ bs, catalog? = .ok ⟨byId, bs⟩ := by
  have hnew : firstRepeat? [] (byId.map Rule.id ++ byId.flatMap fun r => r.info.aliases) = none := by
    decide
  have hresolve : byId.mapM (resolveRule byId) = .ok byId := rfl
  obtain ⟨bs, hbs⟩ : ∃ bs, resolveBundles byId
      (byId.map Rule.id ++ byId.flatMap fun r => r.info.aliases) bundles = .ok bs := ⟨_, rfl⟩
  refine ⟨bs.mergeSort fun a b => decide (a.id ≤ b.id), ?_⟩
  simp only [catalog?, Catalog.build, mergeSort_all, hnew, hresolve, hbs]
  rfl

section Imports

/-- Takes the rule for imports and no other. -/
def importsOnly : Selection := { Selection.standard with taken := ["UnnecessaryImport"] }

/-- The rule for imports at every level from the lowest on for which there are rules. -/
def importsTable : Timetable :=
  ⟨⟨[], []⟩, [5, 6, 7, 8, 10, 11].map fun level => (level, ⟨[unnecessaryImport], []⟩)⟩

theorem ofSelection_importsOnly (bs : List Bundle) :
    Timetable.ofSelection ⟨byId, bs⟩ importsOnly = .ok importsTable := by
  cbv

end Imports

end Catalog

open SyntaxTree Session

section Imports

variable {t u : SyntaxTree} {d : Doc}

/-- The whole unit is an import that no unit has to state. -/
def isImportOnly (t : SyntaxTree) : Bool := t.rootDoc?.any fun d => isLanguageImport d.kind

theorem isImportOnly_eq {n : NodeId} (ht : t.Linked) (hr : t.root = some n) :
    isImportOnly t = isLanguageImport (t.kind n) := by
  rw [isImportOnly, rootDoc?, hr, Option.map_some, Option.any_some, ht.kind_doc]

theorem category_of_isLanguageImport {k : NodeKind} (h : isLanguageImport k = true) :
    k.category = .importDecl := by
  cases k <;> first | rfl | cases h

/-- An import holds nothing, so there is nothing about it to make better. -/
theorem total_of_import (hd : d.Conforms) (hk : d.kind.category = .importDecl) :
    d.weight = 1 ∧ d.count = 1 := by
  obtain ⟨k, span, ty, slots, list⟩ := d
  cases k <;> try cases hk
  have hf := hd.fits
  obtain rfl : slots = [] := List.map_eq_nil_iff.mp (List.forall₂_nil_right_iff.mp hf.slots)
  obtain rfl : list = [] := List.map_eq_nil_iff.mp (hf.unlisted rfl)
  simp only [Doc.weight, Doc.count, Doc.total_node, Doc.slots, Doc.list, Doc.totalSlots_nil,
    Doc.totalList_nil, Nat.mul_zero, Nat.add_zero]
  exact ⟨rfl, rfl⟩

theorem category_ne_of_rewritten (ht : t.Sound) (h : t.Rewritten u) (hd : t.rootDoc? = some d) :
    d.kind.category ≠ .importDecl := by
  intro hk
  obtain ⟨d', e, hd', he, hless, hcat⟩ := h.less
  obtain rfl : d = d' := Option.some.inj (hd.symm.trans hd')
  obtain ⟨hw, hc⟩ := total_of_import (ht.linked.laid_iff.mp ht.laid d hd) hk
  obtain ⟨hw', hc'⟩ := total_of_import (h.linked.laid_iff.mp h.laid e he) (hcat.trans hk)
  rw [Doc.Less] at hless
  omega

/-- Imports as roots neither come nor go. -/
theorem isImportOnly_of_rewritten (ht : t.Sound) (h : t.Rewritten u) :
    isImportOnly u = isImportOnly t := by
  obtain ⟨d, e, hd, he, -, hcat⟩ := h.less
  have hne := category_ne_of_rewritten ht h hd
  have hd' : isLanguageImport d.kind = false :=
    Bool.eq_false_iff.mpr fun hi => hne (category_of_isLanguageImport hi)
  have he' : isLanguageImport e.kind = false :=
    Bool.eq_false_iff.mpr fun hi => hne (hcat ▸ category_of_isLanguageImport hi)
  rw [isImportOnly, isImportOnly, hd, he, Option.any_some, Option.any_some, hd', he']

end Imports

section Events

variable {r : Rule} {t : SyntaxTree} {n : NodeId} {c : Session.Setting} {s s' : State}

/-- A try reports that an import at the root cannot be taken away, or nothing. -/
theorem Reliable.events_cases (h : Reliable r) (ht : t.Sound) (hn : t.isAttached n = true)
    (x : Edit.Setting) (es : List Event) : ((r.act n).runFrom x t es).events = es ∨
      (r.id = "UnnecessaryImport" ∧ isImportOnly t = true) ∧ ∃ e, e.kind = .rejected "remove" ∧
        ((r.act n).runFrom x t es).events = es ++ [e] := by
  have ho := h.tried ht.linked ht.laid hn x es
  generalize (r.act n).runFrom x t es = o at ho
  cases ho with
  | idle => exact .inl rfl
  | rewritten hu => exact .inl rfl
  | refused hid hr hk =>
    refine .inr ⟨⟨hid, ?_⟩, _, rfl, rfl⟩
    rwa [isImportOnly_eq ht.linked hr]

/-- What may be reported, if edits are rejected under a condition only. -/
def Allowed (refusal : Prop) (e : Event) : Prop :=
  match e.kind with
  | .panicked _ => False
  | .rejected _ => refusal
  | _ => True

/-- The rule for imports is among the rules, and the root is an import that no unit has to state. -/
def Refuses (rules : List Rule) (t : SyntaxTree) : Prop :=
  "UnnecessaryImport" ∈ rules.map Rule.id ∧ isImportOnly t = true

theorem isImportOnly_of_rewriting {res : Resolver} {u : SyntaxTree} (ht : t.Sound)
    (h : Relation.ReflTransGen (Rewriting res) t u) : u.Sound ∧ isImportOnly u = isImportOnly t := by
  induction h with
  | refl => exact ⟨ht, rfl⟩
  | tail _ hu ih =>
    have hroot := isImportOnly_of_rewritten ih.1 (hu.rewritten ih.1)
    exact ⟨hu.sound ih.1, hroot.trans ih.2⟩

theorem allowed_append {refusal : Prop} {es : List Event} {e : Event}
    (hes : ∀ a ∈ es, Allowed refusal a) (he : Allowed refusal e) :
    ∀ a ∈ es ++ [e], Allowed refusal a := by
  intro a ha
  rcases List.mem_append.mp ha with ha | ha
  · exact hes a ha
  · obtain rfl := List.mem_singleton.mp ha
    exact he

theorem allowed_of_turns (hc : ∀ r ∈ c.rules, IsStandard r) (h : Turns c s s') (hs : s.tree.Sound)
    (he : ∀ e ∈ s.events, Allowed (Refuses c.rules s.tree) e) :
    ∀ e ∈ s'.events, Allowed (Refuses c.rules s.tree) e := by
  induction h with
  | refl => exact he
  | @tail s₁ s₂ hturns hturn ih =>
    obtain ⟨hs₁, hi⟩ := isImportOnly_of_rewriting hs (rewriting_of_turns hc hturns hs).1
    have htried : ∀ {r n}, r ∈ c.rules → s₁.tree.isAttached n = true →
        ∀ e ∈ (tried c r n s₁).events, Allowed (Refuses c.rules s.tree) e := by
      intro r n hr hn
      rcases (hc r hr).reliable.events_cases hs₁ hn ⟨c.resolver, r.id, c.pass⟩ s₁.events with
        hev | ⟨⟨hid, hio⟩, e, hk, hev⟩ <;> rw [tried, hev]
      · exact ih
      · apply allowed_append ih
        rw [Allowed, hk]
        exact ⟨List.mem_map.mpr ⟨r, hr, hid⟩, hi ▸ hio⟩
    cases hturn with
    | idle hr hn ha hrev => exact htried hr hn
    | change hr hn ha hrev => exact allowed_append (htried hr hn) trivial
    | capped hr => exact allowed_append ih trivial

/-- The rule for imports is the only one of its name. -/
theorem eq_unnecessaryImport {q : Rule} (hq : q ∈ all) (hid : q.id = "UnnecessaryImport") :
    q = unnecessaryImport := by
  simp only [all, List.mem_cons, List.not_mem_nil, or_false] at hq
  rcases hq with rfl | rfl | rfl | rfl | rfl | rfl | rfl | rfl | rfl | rfl | rfl | rfl | rfl | rfl |
    rfl | rfl | rfl | rfl | rfl | rfl | rfl | rfl | rfl | rfl | rfl | rfl | rfl | rfl | rfl | rfl |
    rfl | rfl <;> first | rfl | exact absurd hid (by decide)

theorem IsStandard.imports (h : IsStandard r) (hid : r.id = "UnnecessaryImport") :
    r.act = unnecessaryImport.act ∧ r.granularity = .node := by
  obtain ⟨q, hq, _, _, rfl⟩ := h
  obtain rfl := eq_unnecessaryImport hq hid
  exact ⟨rfl, rfl⟩

theorem runFrom_unnecessaryImport (hp : t.parent? n = none) (hk : isLanguageImport (t.kind n) = true)
    (x : Edit.Setting) (es : List Event) : (unnecessaryImport.act n).runFrom x t es =
      ⟨.ok false, t, es ++ [⟨x.pass, some x.rule, some n, t.span n, .rejected "remove"⟩]⟩ := by
  have hsome := unnecessaryImport_isSome_of_root (v := ⟨t, x.resolver, x.rule, x.pass⟩) hp
  rw [hk] at hsome
  obtain ⟨p, hplan⟩ := Option.isSome_iff_exists.mp hsome
  simp only [unnecessaryImport, Rule.ofPlan, Edit.runFrom, hplan]
  rw [(unnecessaryImport_plan hplan).1]
  exact runFrom_takeAway_of_root hp x es

/-- A refusal was reported. -/
def Reported (es : List Event) : Prop := ∃ e ∈ es, e.kind = .rejected "remove"

theorem offerAll_reported (hc : ∀ r ∈ c.rules, IsStandard r) {rules : List Rule} (i : Nat)
    (hr : ∀ r ∈ rules, r ∈ c.rules) (hs : s.tree.Sound) (hroot : s.tree.root = some n)
    (hd : s.disabled = []) (href : Refuses rules s.tree) :
    Reported (offerAll c i rules n s).2.events := by
  have hn := hs.linked.attached_root hroot
  have hk : isLanguageImport (s.tree.kind n) = true := isImportOnly_eq hs.linked hroot ▸ href.2
  induction rules generalizing i s with
  | nil => cases href.1
  | cons r rules ih =>
    obtain ⟨hr₁, hr₂⟩ := List.forall_mem_cons.mp hr
    have hidle : ¬ r.Rewrites (c.of r) s.tree n := by
      intro hw
      rcases ((hc r hr₁).reliable.tree_cases hs hn (c.of r) []).2 with he | hu
      · exact hw.2 (congrArg SyntaxTree.revision he)
      · apply category_ne_of_rewritten hs hu (congrArg (Option.map s.tree.doc) hroot)
        rw [hs.linked.kind_doc]
        exact category_of_isLanguageImport hk
    rcases offerAll_cons (tame hc c.resolver) i hr hs hn with ⟨hw, -⟩ | ⟨s₁, hturns, ha, he, h⟩
    · exact absurd hw hidle
    · rw [he]
      have hkept := Turns.kept (tame hc c.resolver) hturns hs
      have htree := (rewriting_of_turns hc hturns hs).2 ha
      by_cases hid : r.id = "UnnecessaryImport"
      · obtain ⟨hact, hgran⟩ := (hc r hr₁).imports hid
        have hturns' := (offerAll_turns (tame hc c.resolver) (i + 1) hr₂ hkept.1
          (by rwa [htree])).1
        have hsub := (Turns.kept (tame hc c.resolver) hturns' hkept.1).2.events.subset
        have htried : (tried c r n s).events = s.events ++
            [⟨c.pass, some r.id, some n, s.tree.span n, .rejected "remove"⟩] := by
          rw [tried, hact, runFrom_unnecessaryImport (hs.linked.root hroot).2 hk]
        refine ⟨⟨c.pass, some r.id, some n, s.tree.span n, .rejected "remove"⟩, hsub ?_, rfl⟩
        rw [(h hd).2, hgran, if_pos (by rfl), State.idled, htried]
        exact List.mem_append_right _ (.head _)
      · have hmem : "UnnecessaryImport" ∈ rules.map Rule.id := by
          rcases List.mem_cons.mp href.1 with he | hmem
          · exact absurd he.symm hid
          · exact hmem
        rw [← htree] at hroot hk href hn
        exact ih (i + 1) hr₂ hkept.1 hroot (hkept.2.disabled.trans hd) ⟨hmem, href.2⟩ hn hk

end Events

section Runs

variable {rules : List Rule} {res : Resolver} {limits : Limits} {fuel : Nat} {s : State}

theorem runFrom_allowed (hr : ∀ r ∈ rules, IsStandard r) {left : Nat} {o : RunOutcome} {r : Result}
    (hs : s.tree.Sound) (he : ∀ e ∈ s.events, Allowed (Refuses rules s.tree) e)
    (h : runFrom rules res limits fuel left o s = some r) :
    r.tree.Sound ∧ ∀ e ∈ r.events, Allowed (Refuses rules s.tree) e := by
  induction left generalizing o s with
  | zero =>
    rw [runFrom, finish] at h
    obtain ⟨converged, -, rfl⟩ := Option.map_eq_some_iff.mp h
    refine ⟨hs, ?_⟩
    cases converged with
    | true => exact he
    | false => exact allowed_append he trivial
  | succ left ih =>
    rw [runFrom] at h
    split at h
    · cases h
    next s₁ hp =>
      have hturns := pass_turns (tame hr res) hs hp
      have he₁ := allowed_of_turns hr hturns hs he
      obtain ⟨hs₁, hi⟩ := isImportOnly_of_rewriting hs (rewriting_of_turns hr hturns hs).1
      split at h
      · cases h
        exact ⟨hs₁, he₁⟩
      · have hre : Refuses rules s₁.tree = Refuses rules s.tree := by rw [Refuses, hi, Refuses]
        rw [← hre]
        exact ih hs₁ (by rwa [hre]) h

/-- With an import as the root, a pass changes nothing and reports the refusal. -/
theorem pass_of_refuses {c : Session.Setting} {s' : State} (hc : ∀ r ∈ c.rules, IsStandard r)
    (hs : s.tree.Sound) (hd : s.disabled = []) (href : Refuses c.rules s.tree)
    (hp : Session.pass c fuel s = some s') : s'.applied = 0 ∧ Reported s'.events := by
  obtain ⟨n, hroot⟩ : ∃ n, s.tree.root = some n := by
    cases hroot : s.tree.root with
    | some n => exact ⟨n, rfl⟩
    | none =>
      have hio := href.2
      rw [isImportOnly, rootDoc?, hroot] at hio
      cases hio
  have hturns := pass_turns (tame hc c.resolver) hs hp
  constructor
  · have hrw := (rewriting_of_turns hc hturns hs).1
    rcases Relation.ReflTransGen.cases_head hrw with he | ⟨u, hu, -⟩
    · have hkept := (Turns.kept (tame hc c.resolver) hturns hs).2
      exact hkept.idle.mpr (congrArg SyntaxTree.revision he.symm)
    · have hne := category_ne_of_rewritten hs (hu.rewritten hs)
        (congrArg (Option.map s.tree.doc) hroot)
      rw [hs.linked.kind_doc] at hne
      have hk : isLanguageImport (s.tree.kind n) = true := isImportOnly_eq hs.linked hroot ▸ href.2
      exact absurd (category_of_isLanguageImport hk) hne
  · -- the root comes first, and later turns take back no report
    rw [Session.pass, hroot] at hp
    cases fuel with
    | zero => cases hp
    | succ fuel =>
      have hn := hs.linked.attached_root hroot
      obtain ⟨e, he, hkind⟩ := offerAll_reported (s := { s with applied := 0 }) hc 0
        (fun r hr => hr) hs hroot hd href
      have ho := offerAll_turns (s := { s with applied := 0 }) (tame hc c.resolver) 0
        (fun r hr => hr) hs hn
      have hk := (Turns.kept (tame hc c.resolver) ho.1 hs).1
      have hlater := turns_of_visit (s := { s with applied := 0 }) (tame hc c.resolver) hs hn hp
      have hsub := (Turns.kept (tame hc c.resolver) hlater hk).2.events.subset
      exact ⟨e, hsub he, hkind⟩

/-- A session reports a rejected edit if and only if the rule for imports refuses in a pass. -/
theorem run_rejected_iff {t : SyntaxTree} {r : Result} (hr : ∀ r ∈ rules, IsStandard r)
    (hs : t.Sound) (h : run rules res limits fuel t = some r) :
    (∃ e ∈ r.events, ∃ w, e.kind = .rejected w) ↔ Refuses rules t ∧ 0 < limits.passBound := by
  constructor
  · rintro ⟨e, he, w, hk⟩
    have hallowed := (runFrom_allowed (s := ⟨t, [], [], 0⟩) hr hs (List.forall_mem_nil _) h).2 e he
    rw [Allowed, hk] at hallowed
    refine ⟨hallowed, Nat.pos_of_ne_zero ?_⟩
    intro hb
    -- without a pass, only the probe is made, of which nothing is reported
    rw [run, hb, runFrom, finish] at h
    obtain ⟨converged, -, rfl⟩ := Option.map_eq_some_iff.mp h
    cases converged with
    | true => cases he
    | false =>
      obtain rfl := List.mem_singleton.mp he
      cases hk
  · rintro ⟨href, hb⟩
    obtain ⟨left, hleft⟩ := Nat.exists_eq_succ_of_ne_zero hb.ne'
    rw [run, hleft, runFrom] at h
    split at h
    · cases h
    next s' hp =>
      obtain ⟨ha, e, he, hrej⟩ := pass_of_refuses (s := ⟨t, [], [], 0⟩) hr hs rfl href hp
      rw [if_pos ha] at h
      cases h
      exact ⟨e, he, _, hrej⟩

end Runs

section Units

variable {id : Nat} {d : UnitDoc} {u : SourceUnit} {c : Catalog} {sel : Selection}
  {table : Timetable}

theorem isStandard_of_scheduled (hc : catalog? = .ok c)
    (ht : Timetable.ofSelection c sel = .ok table) (level : Level) :
    ∀ r ∈ (table.scheduleAt level).rules, IsStandard r := by
  intro r hr
  exact Catalog.sameWork_of_build hc r (Timetable.mem_of_ofSelection ht level r hr)

/-- For every unit that is built and every selection that can be scheduled, a session comes to its end,
no rule breaks off, and the tree keeps the rules for links and layouts. Edits are rejected if and only
if the unit is an import that no unit has to state, the rule for imports is used, and there is a pass
that it can be used in. -/
theorem standard_commits_accepted (hu : SourceUnit.ofDoc id d = .ok u) (hc : catalog? = .ok c)
    (ht : Timetable.ofSelection c sel = .ok table) (limits : Limits) :
    (∃ least r, ∀ fuel, least ≤ fuel → u.tidy table limits fuel = some r) ∧
    ∀ fuel r, u.tidy table limits fuel = some r →
      r.unit.tree.validate.passed = true ∧ (∀ e ∈ r.events, ∀ m, e.kind ≠ .panicked m) ∧
      ((∃ e ∈ r.events, ∃ w, e.kind = .rejected w) ↔ isLanguageImport d.root.kind = true ∧
        "UnnecessaryImport" ∈ (table.scheduleAt u.level).ids ∧ 0 < limits.passBound) := by
  have hr := isStandard_of_scheduled hc ht u.level
  obtain ⟨hs, hdoc⟩ := SourceUnit.ofDoc_sound hu
  have hroot : isImportOnly u.tree = isLanguageImport d.root.kind := by
    rw [isImportOnly, hdoc, Option.any_some, Doc.kind_padded]
  constructor
  · obtain ⟨least, r, h⟩ := run_ends hr hs (Resolver.ofClasses u.classes) limits
    refine ⟨least, ⟨{ u with tree := r.tree }, r.outcome, r.events⟩, ?_⟩
    intro fuel hf
    rw [SourceUnit.tidy, h fuel hf]
    rfl
  · intro fuel r htidy
    obtain ⟨result, h, rfl⟩ := Option.map_eq_some_iff.mp htidy
    obtain ⟨hs', hall⟩ := runFrom_allowed (s := ⟨u.tree, [], [], 0⟩) hr hs (List.forall_mem_nil _) h
    refine ⟨hs'.linked.validate_passed hs'.laid, ?_, ?_⟩
    · intro e he m hk
      have hallowed := hall e he
      rw [Allowed, hk] at hallowed
      exact hallowed
    · refine (run_rejected_iff hr hs h).trans ?_
      rw [Refuses, hroot, and_comm (a := "UnnecessaryImport" ∈ _), and_assoc]
      rfl

/-- A double negation is no import, so no edit is rejected. -/
theorem negation_commits_accepted : ∃ u c r,
    SourceUnit.ofDoc 1 ⟨"T.java", .standard, [], .plain (.unary .not) [some (.plain (.unary .not)
      [some (.plain (.nameExpr "x") [] [])] [])] []⟩ = .ok u ∧ catalog? = .ok c ∧
    Timetable.ofSelection c importsOnly = .ok importsTable ∧
    (∃ fuel, u.tidy importsTable .standard fuel = some r) ∧
    ¬ ∃ e ∈ r.events, ∃ w, e.kind = .rejected w := by
  obtain ⟨bs, hc⟩ := exists_catalog
  have ht := ofSelection_importsOnly bs
  obtain ⟨u, hu⟩ : ∃ u, SourceUnit.ofDoc 1 ⟨"T.java", .standard, [], .plain (.unary .not)
    [some (.plain (.unary .not) [some (.plain (.nameExpr "x") [] [])] [])] []⟩ = .ok u := ⟨_, rfl⟩
  obtain ⟨⟨least, r, h⟩, hall⟩ := standard_commits_accepted hu hc ht .standard
  have hr := h least (le_refl _)
  refine ⟨u, _, r, hu, hc, ht, ⟨least, hr⟩, ?_⟩
  intro hrej
  exact Bool.false_ne_true ((hall least r hr).2.2.mp hrej).1

/-- The rule for imports tries to take away an import that is the whole unit. -/
theorem import_not_taken_away : ∃ u c r,
    SourceUnit.ofDoc 1 ⟨"T.java", .standard, [], .plain (.importDecl "java.lang" false true) [] []⟩ =
      .ok u ∧ catalog? = .ok c ∧ Timetable.ofSelection c importsOnly = .ok importsTable ∧
    u.tidy importsTable .standard 1 = some r ∧ ∃ e ∈ r.events, e.kind = .rejected "remove" := by
  obtain ⟨bs, hc⟩ := exists_catalog
  exact ⟨_, _, _, rfl, hc, ofSelection_importsOnly bs, rfl, _, .head _, rfl⟩

end Units

end TreeTidy.Rules
