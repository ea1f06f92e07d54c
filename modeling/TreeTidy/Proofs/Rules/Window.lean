import TreeTidy.Proofs.Rules.Descends
import TreeTidy.Proofs.Tree.Bounds
import TreeTidy.Rules.Window
/-! The rules on a statement and the one after it lead downwards: one statement is left of two. -/
namespace TreeTidy.Rules

open SyntaxTree Draft

variable {t : SyntaxTree} {n m p : NodeId} {D : Doc} {d : Draft Commit}

section

variable (ht : t.Linked)
include ht

theorem following?_eq_some : following? t n = some m ↔
    ∃ p i, t.parent? n = some p ∧ (t.list p)[i]? = some n ∧ (t.list p)[i + 1]? = some m := by
  simp only [following?, Option.bind_eq_some_iff, ht.window?_eq_some]
  constructor
  · rintro ⟨w, ⟨p, i, hp, hi, hlen, rfl⟩, hm⟩
    refine ⟨p, i, hp, hi, ?_⟩
    simpa [List.getElem?_take, List.getElem?_drop] using hm
  · rintro ⟨p, i, hp, hi, hm⟩
    have hlt := (List.getElem?_eq_some_iff.mp hm).1
    refine ⟨_, ⟨p, i, hp, hi, by omega, rfl⟩, ?_⟩
    simpa [List.getElem?_take, List.getElem?_drop] using hm

theorem following?_attached (hn : t.isAttached n = true) (hm : following? t n = some m) :
    t.isAttached m = true := by
  obtain ⟨p, i, hp, hi, hmi⟩ := (following?_eq_some ht).mp hm
  exact ht.attached_child (ht.attached_parent hn hp) (child_list (List.mem_of_getElem? hmi))

variable (hl : t.Laid) (hn : t.isAttached n = true)
include hl hn

/-- A statement takes the place of two that are heavier together. -/
theorem splice_two_rewrites (hm : following? t n = some m) (h : d.Ends t [] (.splice n 2) D)
    (hD : D.Proper t) (hk : D.kind.category = (t.kind n).category) (hb : t.kind n ≠ .block)
    (hw : D.weight < t.weight n + t.weight m) : (plan d).Rewrites t := by
  obtain ⟨p, i, hp, hi, hmi⟩ := (following?_eq_some ht).mp hm
  have hlt := (List.getElem?_eq_some_iff.mp hmi).1
  have hat : (t.node p).at? (.list i) = some n := hi
  have htwo : ((t.list p).drop i).take 2 = [n, m] := by
    have hd : (t.list p).drop i = n :: m :: (t.list p).drop (i + 2) := by
      rw [List.drop_eq_getElem_cons (by omega), List.drop_eq_getElem_cons hlt,
        (List.getElem?_eq_some_iff.mp hi).2, (List.getElem?_eq_some_iff.mp hmi).2]
    rw [hd]
    rfl
  refine h.splice_rewrites ht hl hn hD hp hi (by omega) Nat.two_pos ?_ ?_
  · exact (hl.takes ht hn hk hb).admits p (.list i) hp hat
  · rw [htwo]
    simpa using hw

/-- The only statement of a branch is within it. -/
theorem singleStatement?_within (h : t.singleStatement? n = some m) :
    t.Within m n ∧ t.weight m ≤ t.weight n := by
  unfold singleStatement? at h
  split at h
  next hk =>
    split at h
    next only hlist =>
      obtain rfl := Option.some.inj h
      have hw := hl.weight_le ht hn
      rw [hlist, List.map_cons, List.sum_cons] at hw
      exact ⟨.single (child_list (by simp [hlist])), by omega⟩
    · cases h
  · obtain rfl := Option.some.inj h
    exact ⟨.refl, le_refl _⟩

omit ht hl hn in
/-- An assignment under a condition, taken apart. -/
theorem guardedAssign?_parts {g : GuardedAssign} (h : guardedAssign? t n = some g) :
    t.kind n = .ifStmt ∧ t.slot? n 2 = none ∧ t.slot? n 0 = some g.cond ∧
      ∃ yes stmt assign target, t.slot? n 1 = some yes ∧ t.singleStatement? yes = some stmt ∧
        t.kind stmt = .exprStmt ∧ t.slot? stmt 0 = some assign ∧ t.kind assign = .assign .assign ∧
        t.slot? assign 0 = some target ∧ t.kind target = .nameExpr g.name ∧
        t.slot? assign 1 = some g.value := by
  simp only [guardedAssign?] at h
  split at h
  · cases h
  next hif =>
    simp only [Bool.or_eq_true, decide_eq_true_eq, not_or, not_not, Option.not_isSome_iff_eq_none]
      at hif
    simp only [Option.bind_eq_bind, Option.bind_eq_some_iff] at h
    obtain ⟨cond, hc, yes, hy, stmt, hs, h⟩ := h
    split at h
    · cases h
    next hks =>
      simp only [Option.bind_eq_some_iff] at h
      obtain ⟨assign, ha, h⟩ := h
      split at h
      · cases h
      next hka =>
        simp only [Option.bind_eq_some_iff] at h
        obtain ⟨target, ht, value, hv, h⟩ := h
        split at h
        next name hname =>
          obtain rfl := Option.some.inj h
          simp only [ne_eq, not_not] at hks hka
          exact ⟨hif.1, hif.2, hc, yes, stmt, assign, target, hy, hs, hks, ha, hka, ht, hname, hv⟩
        · cases h

/-- What an assignment under a condition weighs, and where its parts are. -/
theorem guardedAssign?_sound {g : GuardedAssign} (h : guardedAssign? t n = some g) :
    t.SubExpr n g.cond ∧ t.SubExpr n g.value ∧
      8 + t.weight g.cond + t.weight g.value ≤ t.weight n := by
  obtain ⟨hif, -, hc, yes, stmt, assign, -, hy, hs, hks, ha, hka, -, -, hv⟩ := guardedAssign?_parts h
  have hya := ht.attached_child hn (child_slot hy)
  obtain ⟨hsy, hsw⟩ := singleStatement?_within ht hl hya hs
  have hsn : t.Within stmt n := hsy.tail (child_slot hy)
  have hsa := ht.attached_of_within hn hsn
  have han : t.Within assign n := hsn.head (child_slot ha)
  have haa := ht.attached_of_within hn han
  have hwn := hl.weight_le ht hn
  have hws := hl.weight_le ht hsa
  have hwa := hl.weight_le ht haa
  rw [hif, slotWeight_some hc, slotWeight_some hy,
    show NodeKind.weight .ifStmt = 4 from rfl] at hwn
  rw [slotWeight_some ha] at hws
  rw [hka, slotWeight_some hv, show NodeKind.weight _ = 4 from rfl] at hwa
  have hC := hl.subExpr_slot ht hn .refl (i := 0) (by rw [hif]; rfl) hc
  have hV := hl.subExpr_slot ht hn han (i := 1) (by rw [hka]; rfl) hv
  exact ⟨hC, hV, by omega⟩

end

/-- What has no effect is no assignment, so a choice can end with it. -/
theorem bears_of_isEffectFree {a : NodeId} (ht : t.Linked) (h : t.isEffectFree a = true) :
    NodeKind.conditional.Bears (.slot 2) (t.doc a).kind := by
  have hm : a ∈ t.descendants a := mem_descendants_iff.mpr .refl
  rw [isEffectFree, anyKind, Bool.not_eq_true', List.any_eq_false] at h
  refine NodeKind.bears_last fun op hk => h a hm ?_
  rw [← ht.kind_doc, hk]
  rfl

/-- The declaration that a variable and the assignment after it are folded into. -/
def foldedDeclaration (t : SyntaxTree) (n branch ty start : NodeId) (name : String)
    (g : GuardedAssign) : Doc :=
  .make (.localVar name) ((t.span n).cover (t.span branch))
    [t.doc ty, (t.doc g.cond).chosen (t.doc g.value) (t.doc start)] []

/-- A declaration of a variable and a conditional assignment to it that can be folded into one. -/
structure Foldable (v : View) (n branch ty start : NodeId) (name : String) (g : GuardedAssign) :
    Prop where
  kind : v.tree.kind n = .localVar name
  typed : v.tree.slot? n 0 = some ty
  starts : v.tree.slot? n 1 = some start
  follows : following? v.tree n = some branch
  assigns : guardedAssign? v.tree branch = some g
  named : g.name = name
  startFree : v.tree.isEffectFree start = true
  condFree : v.tree.isEffectFree g.cond = true
  condApart : v.tree.mentions g.cond name = false
  valueApart : v.tree.mentions g.value name = false
  sameType : haveSameType v g.value start = true

/-- What the rule plans is to fold the two statements into one. -/
theorem conditionalAssignmentToTernary_folds {v : View} {plan : Plan} (ht : v.tree.Linked)
    (hl : v.tree.Laid) (hn : v.tree.isAttached n = true)
    (h : conditionalAssignmentToTernary.planAt v n = some plan) :
    ∃ name ty start branch g d, plan = Draft.plan d ∧ Foldable v n branch ty start name g ∧
      (foldedDeclaration v.tree n branch ty start name g).Proper v.tree ∧
      d.Ends v.tree [] (.splice n 2) (foldedDeclaration v.tree n branch ty start name g) := by
  simp only [conditionalAssignmentToTernary.planAt] at h
  split at h
  next name hk =>
    simp only [Option.bind_eq_bind, Option.bind_eq_some_iff] at h
    obtain ⟨ty, hty, start, hs, branch, hb, g, hg, h⟩ := h
    split at h
    · cases h
    next hcond =>
      obtain rfl := Option.some.inj h
      simp only [Bool.or_eq_true, decide_eq_true_eq, Bool.not_eq_true', not_or, Bool.not_eq_false,
        Bool.not_eq_true, not_not] at hcond
      obtain ⟨⟨⟨⟨⟨hname, hstart⟩, hfree⟩, hcapart⟩, hvapart⟩, hsame⟩ := hcond
      have hba := following?_attached ht hn hb
      obtain ⟨hC, hV, -⟩ := guardedAssign?_sound ht hl hba hg
      have hS := hl.subExpr_slot ht hn .refl (i := 1) (by rw [hk]; rfl) hs
      have hDC := hC.doc ht hba hl
      have hDV := hV.doc ht hba hl
      have hDS := hS.doc ht hn hl
      have hta := ht.attached_child hn (child_slot hty)
      have hbears := bears_of_isEffectFree ht hstart
      have hch := hDC.chosen hDV hDS hbears
      have hf : (foldedDeclaration v.tree n branch ty start name g).Fits := by
        have htk := hl.admits_slot ht hn hty
        rw [hk] at htk
        refine ⟨.cons ?_ (.cons hch.kind .nil), fun _ => rfl, fun _ h => by cases h⟩
        show SlotClass.type.accepts (v.tree.doc ty).kind = true
        rw [ht.kind_doc]
        exact htk
      refine ⟨name, ty, start, branch, g, _, rfl,
        ⟨hk, hty, hs, hb, hg, hname, hstart, hfree, hcapart, hvapart, hsame⟩, ?_, ?_⟩
      · exact Doc.Proper.make hf (.cover (.own hn) (.own hba)) rfl
          (fun _ => ⟨.inl (Nat.zero_le _), .inl (Nat.zero_le _), trivial⟩)
          (by simp [hch.toProper, hl.proper ht hta]) (List.forall_mem_nil _)
      · apply copy_ends ht (attached_alive hta)
        intro x
        apply Ends.bind [(x, _)] (copy_yields ht (hC.alive ht hba))
        intro c
        apply Ends.bind [(x, _), (c, _)] (copy_yields ht (hV.alive ht hba))
        intro b
        apply Ends.bind [(x, _), (c, _), (b, _)] (copy_yields ht (hS.alive ht hn))
        intro a
        refine (Ends.bind [(x, _)] (choose_yields c b a hDC hDV hDS hbears) ?_).perm
          (List.perm_append_singleton (x, _) [(c, _), (b, _), (a, _)])
        intro choice
        apply Ends.of_yields (make_yields [(x, _), (choice, _)] [] hf)
        intro decl
        exact Ends.pure (.splice n 2) decl _
  next => cases h

theorem conditionalAssignmentToTernary_descends : Descends conditionalAssignmentToTernary.planAt := by
  intro v n p ht hl hn h
  obtain ⟨name, ty, start, branch, g, d, rfl, hf, hD, hd⟩ :=
    conditionalAssignmentToTernary_folds ht hl hn h
  have hk := hf.kind
  refine splice_two_rewrites ht hl hn hf.follows hd hD (by rw [hk]; rfl) (by rw [hk]; nofun) ?_
  have hwb := (guardedAssign?_sound ht hl (following?_attached ht hn hf.follows) hf.assigns).2.2
  have hwn := hl.weight_le ht hn
  rw [hk, slotWeight_some hf.typed, slotWeight_some hf.starts, show NodeKind.weight _ = 1 from rfl]
    at hwn
  simp only [foldedDeclaration, Doc.weight_make, Doc.slotsWeight, NodeKind.slotFactor,
    Doc.weight_chosen, weight_doc, List.map_nil, List.sum_nil]
  rw [show NodeKind.weight (.localVar name) = 1 from rfl]
  omega

/-- Where a rule that plans a splice changes a tree, a document has the place of the two statements. -/
theorem spliced_of_ends {info : RuleInfo} {planAt : View → NodeId → Option Plan} {x : Edit.Setting}
    {es : List Event} {P : NodeId → Doc → Prop} (ht : t.Linked) (hl : t.Laid)
    (hn : t.isAttached n = true)
    (hrev : (((Rule.ofPlan info .statement planAt).act n).runFrom x t es).tree.revision ≠ t.revision)
    (h : ∀ q, planAt ⟨t, x.resolver, x.rule, x.pass⟩ n = some q → ∃ m D d, q = Draft.plan d ∧
      following? t n = some m ∧ P m D ∧ D.kind.category = (t.kind n).category ∧ t.kind n ≠ .block ∧
      d.Ends t [] (.splice n 2) D) :
    ∃ p i m D, t.parent? n = some p ∧ (t.list p)[i]? = some n ∧ (t.list p)[i + 1]? = some m ∧ P m D ∧
      t.Spliced p i 2 D (((Rule.ofPlan info .statement planAt).act n).runFrom x t es).tree := by
  simp only [Rule.ofPlan, Edit.runFrom] at hrev ⊢
  cases hplan : planAt ⟨t, x.resolver, x.rule, x.pass⟩ n with
  | none =>
    rw [hplan] at hrev
    exact absurd rfl hrev
  | some q =>
    obtain ⟨m, D, d, rfl, hm, hD, hk, hb, hd⟩ := h q hplan
    obtain ⟨p, i, hp, hi, hmi⟩ := (following?_eq_some ht).mp hm
    have hlt := (List.getElem?_eq_some_iff.mp hmi).1
    have hadm := (hl.takes ht hn hk hb).admits p (.list i) hp hi
    obtain ⟨u, hu, hrun⟩ := hd.spliced ht hn hp hi (by omega) Nat.two_pos hadm
    refine ⟨p, i, m, D, hp, hi, hmi, hD, ?_⟩
    simpa only [hrun] using hu

/-- Where the rule changes a tree, a block has one declaration in the place of two statements. -/
theorem conditionalAssignmentToTernary_spliced {x : Edit.Setting} {es : List Event} (ht : t.Linked)
    (hl : t.Laid) (hn : t.isAttached n = true)
    (hrev : ((conditionalAssignmentToTernary.act n).runFrom x t es).tree.revision ≠ t.revision) :
    ∃ p i branch D, t.parent? n = some p ∧ (t.list p)[i]? = some n ∧
      (t.list p)[i + 1]? = some branch ∧ (∃ name ty start g,
        Foldable ⟨t, x.resolver, x.rule, x.pass⟩ n branch ty start name g ∧
        D = foldedDeclaration t n branch ty start name g) ∧
      t.Spliced p i 2 D ((conditionalAssignmentToTernary.act n).runFrom x t es).tree := by
  refine spliced_of_ends ht hl hn hrev fun q hq => ?_
  obtain ⟨name, ty, start, branch, g, d, rfl, hf, -, hd⟩ :=
    conditionalAssignmentToTernary_folds ht hl hn hq
  have hk : t.kind n = .localVar name := hf.kind
  exact ⟨branch, _, d, rfl, hf.follows, ⟨name, ty, start, g, hf, rfl⟩, by rw [hk]; rfl,
    by rw [hk]; exact NodeKind.noConfusion, hd⟩

/-- A return of an expression. -/
theorem proper_return {span : Span} (hs : t.Spanned span) (hD : D.Expr t) :
    (Doc.make .returnStmt span [D] []).Proper t :=
  .make ⟨.cons hD.kind .nil, fun _ => rfl, fun _ h => by cases h⟩ hs rfl
    (fun _ => ⟨.inl (Nat.zero_le _), trivial⟩) (List.forall_mem_singleton.mpr hD.toProper)
    (List.forall_mem_nil _)

theorem weight_return {span : Span} : (Doc.make .returnStmt span [D] []).weight = 1 + D.weight := by
  simp [Doc.weight_make, Doc.slotsWeight, NodeKind.slotFactor,
    show NodeKind.weight .returnStmt = 1 from rfl]

/-- A declaration of a variable that the next statement returns. -/
structure Returnable (v : View) (n ret value : NodeId) (name : String) : Prop where
  kind : v.tree.kind n = .localVar name
  starts : v.tree.slot? n 1 = some value
  follows : following? v.tree n = some ret
  returns : v.tree.kind ret = .returnStmt

/-- The return of a value, in the place of a declaration and the return after it. -/
def directReturn (t : SyntaxTree) (n ret value : NodeId) : Doc :=
  .make .returnStmt ((t.span n).cover (t.span ret)) [t.doc value] []

/-- What the rule plans is to return the value of the variable. -/
theorem unnecessaryLocalBeforeReturn_returns {v : View} {plan : Plan} (ht : v.tree.Linked)
    (hl : v.tree.Laid) (hn : v.tree.isAttached n = true)
    (h : unnecessaryLocalBeforeReturn.planAt v n = some plan) :
    ∃ name value ret d, plan = Draft.plan d ∧ Returnable v n ret value name ∧
      (directReturn v.tree n ret value).Proper v.tree ∧
      d.Ends v.tree [] (.splice n 2) (directReturn v.tree n ret value) := by
  simp only [unnecessaryLocalBeforeReturn.planAt] at h
  split at h
  next name hk =>
    simp only [Option.bind_eq_bind, Option.bind_eq_some_iff] at h
    obtain ⟨ty, -, value, hv, ret, hr, h⟩ := h
    split at h
    · cases h
    next hkr =>
      simp only [Option.bind_eq_some_iff] at h
      obtain ⟨returned, -, h⟩ := h
      split at h
      · cases h
      · obtain rfl := Option.some.inj h
        simp only [ne_eq, not_not] at hkr
        have hV := hl.subExpr_slot ht hn .refl (i := 1) (by rw [hk]; rfl) hv
        have hD := proper_return (.cover (.own hn) (.own (following?_attached ht hn hr)))
          (hV.doc ht hn hl)
        refine ⟨name, value, ret, _, rfl, ⟨hk, hv, hr, hkr⟩, hD, ?_⟩
        apply copy_ends ht (hV.alive ht hn)
        intro x
        apply Ends.of_yields (make_yields [(x, _)] [] hD.conforms.fits)
        intro direct
        exact Ends.pure (.splice n 2) direct _
  next => cases h

theorem unnecessaryLocalBeforeReturn_descends : Descends unnecessaryLocalBeforeReturn.planAt := by
  intro v n p ht hl hn h
  obtain ⟨name, value, ret, d, rfl, hr, hD, hd⟩ := unnecessaryLocalBeforeReturn_returns ht hl hn h
  have hk := hr.kind
  refine splice_two_rewrites ht hl hn hr.follows hd hD (by rw [hk]; rfl) (by rw [hk]; nofun) ?_
  have hwn := hl.weight_le ht hn
  have hwr := hl.kind_weight_le ht (following?_attached ht hn hr.follows)
  rw [hk, slotWeight_some hr.starts, show NodeKind.weight _ = 1 from rfl] at hwn
  rw [hr.returns, show NodeKind.weight .returnStmt = 1 from rfl] at hwr
  rw [directReturn, weight_return, weight_doc]
  omega

/-- Where the rule changes a tree, a block has one return in the place of two statements. -/
theorem unnecessaryLocalBeforeReturn_spliced {x : Edit.Setting} {es : List Event} (ht : t.Linked)
    (hl : t.Laid) (hn : t.isAttached n = true)
    (hrev : ((unnecessaryLocalBeforeReturn.act n).runFrom x t es).tree.revision ≠ t.revision) :
    ∃ p i ret D, t.parent? n = some p ∧ (t.list p)[i]? = some n ∧ (t.list p)[i + 1]? = some ret ∧
      (∃ name value, Returnable ⟨t, x.resolver, x.rule, x.pass⟩ n ret value name ∧
        D = directReturn t n ret value) ∧
      t.Spliced p i 2 D ((unnecessaryLocalBeforeReturn.act n).runFrom x t es).tree := by
  refine spliced_of_ends ht hl hn hrev fun q hq => ?_
  obtain ⟨name, value, ret, d, rfl, hr, -, hd⟩ := unnecessaryLocalBeforeReturn_returns ht hl hn hq
  have hk : t.kind n = .localVar name := hr.kind
  exact ⟨ret, _, d, rfl, hr.follows, ⟨name, value, hr, rfl⟩, by rw [hk]; rfl,
    by rw [hk]; exact NodeKind.noConfusion, hd⟩

/-- A branch that returns a boolean weighs as much as the return and the literal. -/
theorem returnedBoolean?_weight {b : Bool} (ht : t.Linked) (hl : t.Laid) (hn : t.isAttached n = true)
    (h : t.returnedBoolean? n = some b) : 3 ≤ t.weight n := by
  simp only [returnedBoolean?, Option.bind_eq_bind, Option.bind_eq_some_iff] at h
  obtain ⟨stmt, hs, h⟩ := h
  split at h
  · cases h
  next hk =>
    simp only [Option.bind_eq_some_iff] at h
    obtain ⟨value, hv, hb⟩ := h
    simp only [ne_eq, not_not] at hk
    obtain ⟨hsn, hle⟩ := singleStatement?_within ht hl hn hs
    have hsa := ht.attached_of_within hn hsn
    have hva := ht.attached_child hsa (child_slot hv)
    obtain ⟨text, htext⟩ := booleanLiteral?_eq_some hb
    have hw := hl.weight_le ht hsa
    have hwv := hl.kind_weight_le ht (ht.attached_of_within hva (hl.stripParens ht hva).1)
    rw [hk, slotWeight_some hv, show NodeKind.weight .returnStmt = 1 from rfl] at hw
    rw [htext, hl.weight_stripParens ht hva, show NodeKind.weight _ = 2 from rfl] at hwv
    omega

/-- The contrary of a condition is the condition negated at most. -/
theorem contrary_yields {a : NodeId} (ht : t.Linked) (hl : t.Laid) (hn : t.isAttached n = true)
    (ha : t.SubExpr n a) : ∃ D : Doc, D.Expr t ∧ D.weight ≤ 4 + t.weight a ∧
      (contrary t a).Yields t [] D := by
  have haa := ha.attached ht hn
  unfold contrary
  dsimp only
  split
  next operand hk ho =>
    have hsa := ht.attached_of_within haa (hl.stripParens ht haa).1
    have hO := hl.subExpr_slot ht hsa .refl (i := 0) (by rw [hk]; rfl) ho
    have hw := hl.weight_unary ht hsa hk ho
    rw [hl.weight_stripParens ht haa] at hw
    refine ⟨t.doc operand, hO.doc ht hsa hl, ?_, copy_yields ht (hO.alive ht hsa)⟩
    rw [weight_doc]
    omega
  · have hD := ha.doc ht hn hl
    refine ⟨(t.doc a).negated, hD.negated, by rw [Doc.weight_negated, weight_doc], ?_⟩
    exact Yields.bind [] (copy_yields ht (ha.alive ht hn)) fun p => negate_yields p hD

/-- The second branch, or else the statement after the node, is in the tree. -/
theorem last_attached (ht : t.Linked) (hn : t.isAttached n = true)
    (h : (t.slot? n 2).or (following? t n) = some m) : t.isAttached m = true := by
  rcases Option.or_eq_some_iff.mp h with h | ⟨-, h⟩
  · exact ht.attached_child hn (child_slot h)
  · exact following?_attached ht hn h

/-- What follows a choice of drafts follows each of them. -/
theorem ends_ite {b : Bool} {d e : Draft Piece} {g : Piece → Draft Commit} {c : Ref → Commit} {E : Doc}
    (h : (if b then d else e).Yields t [] D) (hg : ∀ q, (g q).Ends t [(q, D)] c E) :
    (if b then d >>= g else e >>= g).Ends t [] c E := by
  cases b <;> exact Ends.of_yields h hg

theorem simplifyBooleanReturn_descends : Descends simplifyBooleanReturn.planAt := by
  intro v n p ht hl hn h
  simp only [simplifyBooleanReturn.planAt] at h
  split at h
  next hk =>
    simp only [Option.bind_eq_bind, Option.bind_eq_some_iff] at h
    obtain ⟨cond, hc, yes, hy, whenTrue, hyes, last, hlast, h⟩ := h
    split at h
    · cases h
    · obtain rfl := Option.some.inj h
      have hC := hl.subExpr_slot ht hn .refl (i := 0) (by rw [hk]; rfl) hc
      have hw := hl.weight_le ht hn
      have hwy := returnedBoolean?_weight ht hl (ht.attached_child hn (child_slot hy)) hyes
      rw [hk, slotWeight_some hc, slotWeight_some hy, show NodeKind.weight .ifStmt = 4 from rfl] at hw
      -- the value that is returned instead
      obtain ⟨V, hV, hVw, hVy⟩ : ∃ D : Doc, D.Expr v.tree ∧ D.weight ≤ 4 + v.tree.weight cond ∧
          (if whenTrue then copy v.tree cond else contrary v.tree cond).Yields v.tree [] D := by
        cases whenTrue with
        | true =>
          refine ⟨v.tree.doc cond, hC.doc ht hn hl, ?_, copy_yields ht (hC.alive ht hn)⟩
          rw [weight_doc]
          omega
        | false => exact contrary_yields ht hl hn hC
      have hla := last_attached ht hn hlast
      have hD := proper_return (.cover (.own hn) (.own hla)) hV
      have hDw : (Doc.make .returnStmt ((v.tree.span n).cover (v.tree.span last)) [V] []).weight =
        1 + V.weight := weight_return
      cases ho : v.tree.slot? n 2 with
      | some otherwise =>
        refine Ends.replace_rewrites ht hl hn ?_ hD.conforms
          (hl.takes ht hn (by rw [hk]; rfl) (by rw [hk]; nofun))
          (suits_of_binding ht hD rfl (by rw [hk]; rfl) (by rw [hk]; nofun)) (.inl ?_)
        · apply ends_ite hVy
          intro value
          apply Ends.of_yields (make_yields [(value, _)] [] hD.conforms.fits)
          intro ret
          exact Ends.pure (.replace n) ret _
        · rw [weight_doc]
          omega
      | none =>
        rw [ho, Option.none_or] at hlast
        refine splice_two_rewrites ht hl hn hlast ?_ hD (by rw [hk]; rfl) (by rw [hk]; nofun) ?_
        · apply ends_ite hVy
          intro value
          apply Ends.of_yields (make_yields [(value, _)] [] hD.conforms.fits)
          intro ret
          exact Ends.pure (.splice n 2) ret _
        · omega
  next => cases h

end TreeTidy.Rules
