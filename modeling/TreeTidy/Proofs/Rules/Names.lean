import TreeTidy.Print.Source
import TreeTidy.Proofs.Resolve.Lookup
import TreeTidy.Proofs.Rules.Window
import TreeTidy.Proofs.Tree.Built
/-!
The rules on a statement and the one after it capture no names. The expressions that they copy come from
the two statements, and the copies stand in the place of the first one. What is declared there is what was
declared before, but for the variable of the first statement, and the others do not mention it.
-/
namespace TreeTidy

/-- The part that a way leads to, if there is no scope on it. -/
def Doc.unscoped? : Doc → List Position → Option Doc
  | d, [] => some d
  | d, pos :: way => if d.kind.isScope then none else (d.child? pos).bind fun c => unscoped? c way

namespace SyntaxTree

variable {t u : SyntaxTree} {a a' c m n p q : NodeId} {name : String} {A : Doc} {way : List Position}

/-- Where there is no scope on the way to a part, names refer to the same on both ends. -/
theorem Linked.exists_of_unscoped? (ht : t.Linked) (hn : t.isAlive n = true)
    (h : (t.doc n).unscoped? way = some A) : ∃ a, t.at? n way = some a ∧ t.isAlive a = true ∧
      t.doc a = A ∧ ∀ name, t.lookupVariable? a name = t.lookupVariable? n name := by
  induction way generalizing n with
  | nil =>
    cases h
    exact ⟨n, rfl, hn, rfl, fun _ => rfl⟩
  | cons pos way ih =>
    rw [Doc.unscoped?] at h
    split at h
    · cases h
    next hk =>
      rw [ht.child?_doc, Option.bind_map] at h
      obtain ⟨c, hc, h⟩ := Option.bind_eq_some_iff.mp h
      have hcn : t.Child c n := Node.mem_children_iff.mpr ⟨pos, hc⟩
      obtain ⟨a, ha, haa, hA, hlook⟩ := ih (by rw [(ht.child hcn).2, hn]) h
      refine ⟨a, by rwa [at?_cons hc], haa, hA, fun name => ?_⟩
      rw [ht.kind_doc, Bool.not_eq_true] at hk
      rw [hlook, ht.lookupVariable?_pass (ht.named hcn hn) hk]

/-- What an expression does not mention is no name in it. -/
theorem kind_ne_of_mentions (h : t.mentions a name = false) (hm : t.Within m a) :
    t.kind m ≠ .nameExpr name := by
  intro hk
  rw [mentions, anyKind, List.any_eq_false] at h
  exact h m (mem_descendants_iff.mpr hm) (by rw [hk]; exact beq_self_eq_true _)

/-- The list of a node has one new node in the place of two, and in it the copies of some expressions in
which all names refer to what they referred to. -/
def KeepsNames (t : SyntaxTree) (n : NodeId) (copied : NodeId → Prop) (u : SyntaxTree) : Prop :=
  ∃ p i new, t.parent? n = some p ∧ (t.list p)[i]? = some n ∧ u.isAttached new = true ∧
    u.list p = (t.list p).take i ++ [new] ++ (t.list p).drop (i + 2) ∧
    ∀ a, copied a → ∃ a', u.Within a' new ∧ t.CopiedNames u a a'

end SyntaxTree

namespace Rules

open SyntaxTree

variable {t u : SyntaxTree} {a n m p branch value : NodeId} {name : String} {D : Doc} {i : Nat}
  {g : GuardedAssign}

section

variable (ht : t.Linked) (hl : t.Laid) (hn : t.isAttached n = true)
include ht hl hn

/-- Two statements are in a block. -/
theorem block_of_listed (hp : t.parent? n = some p) (hi : (t.list p)[i]? = some n)
    (hk : (t.kind n).category = .statement) : t.kind p = .block :=
  NodeKind.block_of_admits (hl.admits_list ht (ht.attached_parent hn hp) (List.mem_of_getElem? hi)) hk

/-- Names of an expression that refer to what they refer to at the first statement do so in a copy, if no
scope is on the way to it. -/
theorem copiedNames_of_spliced (hs : t.Spliced p i 2 D u) (hp : t.parent? n = some p)
    (hi : (t.list p)[i]? = some n) (hk : (t.kind n).category = .statement) {copied : NodeId → Prop}
    (hcopied : ∀ a, copied a → t.isAlive a = true ∧ (t.kind a).isExpression = true ∧
      (∃ way, D.unscoped? way = some (t.doc a)) ∧
      ∀ {way m name}, t.at? a way = some m → t.kind m = .nameExpr name →
        t.lookupVariable? a name = t.lookupVariable? n name) :
    t.KeepsNames n copied u := by
  have hpa := ht.attached_parent hn hp
  have hblock := block_of_listed ht hl hn hp hi hk
  obtain ⟨new, hdoc, hr⟩ := hs.relisted
  have hfirst : ∀ name, u.isAttached new = true ∧ u.parent? new = some p ∧
      u.lookupVariable? new name = t.lookupVariable? n name := fun name =>
    hr.lookupVariable?_first ht hpa hblock hi (List.append_assoc _ [new] _)
  have hna := (hfirst "").1
  refine ⟨p, i, new, hp, hi, hna, congrArg (fun x => x.2.2.2.2) hr.place, fun a ha => ?_⟩
  obtain ⟨haa, hka, ⟨way, hway⟩, hnames⟩ := hcopied a ha
  rw [← hdoc] at hway
  obtain ⟨a', hat, haa', hd, hlook⟩ := hr.linked.exists_of_unscoped? (attached_alive hna) hway
  refine ⟨a', within_of_at? hat, .of_surroundings ht hr.linked hd haa haa' hka ?_⟩
  intro way m name hm hkm
  rw [hlook, (hfirst name).2.2, hnames hm hkm]

omit hl hn in
/-- The only statement of a block comes after nothing. -/
theorem lookupVariable?_singleStatement (ha : t.isAlive n = true)
    (h : t.singleStatement? n = some m) (name : String) : t.isAlive m = true ∧
      t.lookupVariable? m name = t.lookupVariable? n name := by
  unfold singleStatement? at h
  split at h
  next hk =>
    split at h
    next only hlist =>
      obtain rfl := Option.some.inj h
      have hm : t.Child only n := child_list (by simp [hlist])
      have hpos : t.position? only = some (.list 0) :=
        (ht.position?_eq_some (ht.named hm ha)).mpr (congrArg (·[0]?) hlist)
      refine ⟨by rw [(ht.child hm).2, ha], ?_⟩
      rw [ht.lookupVariable?_child (ht.named hm ha), declaredFor?_block hk hpos]
      rfl
    · cases h
  · obtain rfl := Option.some.inj h
    exact ⟨ha, rfl⟩

omit hl hn in
/-- In a conditional assignment names refer to what they refer to at the branch. -/
theorem lookupVariable?_guardedAssign (hb : t.isAlive branch = true)
    (hg : guardedAssign? t branch = some g) :
    t.lookupVariable? g.cond name = t.lookupVariable? branch name ∧
      t.lookupVariable? g.value name = t.lookupVariable? branch name := by
  obtain ⟨hif, -, hc, yes, stmt, assign, -, hy, hs, hks, ha, hka, -, -, hv⟩ := guardedAssign?_parts hg
  have hcb : t.Child g.cond branch := child_slot hc
  have hyb : t.Child yes branch := child_slot hy
  have hya : t.isAlive yes = true := by rw [(ht.child hyb).2, hb]
  obtain ⟨hsa, hstmt⟩ := lookupVariable?_singleStatement ht hya hs name
  have has : t.Child assign stmt := child_slot ha
  have haa : t.isAlive assign = true := by rw [(ht.child has).2, hsa]
  constructor
  · exact ht.lookupVariable?_pass (ht.named hcb hb) (by rw [hif]; rfl)
  · calc t.lookupVariable? g.value name
      _ = t.lookupVariable? assign name :=
        ht.lookupVariable?_pass (ht.named (child_slot hv) haa) (by rw [hka]; rfl)
      _ = t.lookupVariable? stmt name :=
        ht.lookupVariable?_pass (ht.named has hsa) (by rw [hks]; rfl)
      _ = t.lookupVariable? yes name := hstmt
      _ = t.lookupVariable? branch name :=
        ht.lookupVariable?_pass (ht.named hyb hb) (by rw [hif]; rfl)

omit ht hl hn in
/-- The copies that a folded declaration is made of are not in any scope of it. -/
theorem unscoped?_foldedDeclaration {ty start : NodeId}
    (ha : a = start ∨ a = g.cond ∨ a = g.value) :
    ∃ way, (foldedDeclaration t n branch ty start name g).unscoped? way = some (t.doc a) := by
  rcases ha with rfl | rfl | rfl
  · exact ⟨[.slot 1, .slot 2], rfl⟩
  · by_cases hlevel : (t.doc g.cond).kind.binding < 2
    · refine ⟨[.slot 1, .slot 0, .slot 0], ?_⟩
      simp only [foldedDeclaration, Doc.chosen, Doc.atLevel, if_pos hlevel]
      rfl
    · refine ⟨[.slot 1, .slot 0], ?_⟩
      simp only [foldedDeclaration, Doc.chosen, Doc.atLevel, if_neg hlevel]
      rfl
  · exact ⟨[.slot 1, .slot 1], rfl⟩

end

/-- The rules that make one statement of two. -/
def windowRules : List Rule := [conditionalAssignmentToTernary, unnecessaryLocalBeforeReturn]

/-- What such a rule copies of a declaration and the statement after it: the first value, and where the
statements are folded, the condition and the value that is assigned. -/
def Copied (t : SyntaxTree) (r : Rule) (n a : NodeId) : Prop :=
  t.slot? n 1 = some a ∨ r = conditionalAssignmentToTernary ∧ ∃ branch g,
    following? t n = some branch ∧ guardedAssign? t branch = some g ∧ (a = g.cond ∨ a = g.value)

section

variable (ht : t.Linked) (hl : t.Laid) (hn : t.isAttached n = true)
include ht hl hn

/-- In the first value of a variable names refer to what they refer to at its declaration. -/
theorem lookupVariable?_start (hk : t.kind n = .localVar name) (ha : t.slot? n 1 = some a) :
    t.isAlive a = true ∧ (t.kind a).isExpression = true ∧
      ∀ name, t.lookupVariable? a name = t.lookupVariable? n name := by
  have hS := hl.subExpr_slot ht hn .refl (i := 1) (by rw [hk]; rfl) ha
  exact ⟨hS.alive ht hn, hS.expr, fun name =>
    ht.lookupVariable?_pass (ht.named (child_slot ha) (attached_alive hn)) (by rw [hk]; rfl)⟩

variable {x : Edit.Setting} {es : List Event}

theorem conditionalAssignmentToTernary_keeps_names
    (hrev : ((conditionalAssignmentToTernary.act n).runFrom x t es).tree.revision ≠ t.revision) :
    t.KeepsNames n (Copied t conditionalAssignmentToTernary n)
      ((conditionalAssignmentToTernary.act n).runFrom x t es).tree := by
  obtain ⟨p, i, branch, D, hp, hi, hbi, ⟨name, ty, start, g, hf, rfl⟩, hs⟩ :=
    conditionalAssignmentToTernary_spliced ht hl hn hrev
  have hk : t.kind n = .localVar name := hf.kind
  have hst : t.slot? n 1 = some start := hf.starts
  have hba : t.isAttached branch = true := following?_attached ht hn hf.follows
  have hblock := block_of_listed ht hl hn hp hi (by rw [hk]; rfl)
  obtain ⟨hC, hV, -⟩ := guardedAssign?_sound ht hl hba hf.assigns
  -- the variable hides others from the branch, but it is mentioned by neither expression there
  have hnext : ∀ {b m way name'}, t.mentions b name = false → t.at? b way = some m →
      t.kind m = .nameExpr name' → t.lookupVariable? branch name' = t.lookupVariable? n name' := by
    intro b m way name' hb hm hkm
    refine ht.lookupVariable?_next hblock (ht.parent_alive hp) hi hbi fun hkn => ?_
    cases hk.symm.trans hkn
    exact kind_ne_of_mentions hb (within_of_at? hm) hkm
  refine copiedNames_of_spliced ht hl hn hs hp hi (by rw [hk]; rfl) fun a ha => ?_
  have hparts : a = start ∨ a = g.cond ∨ a = g.value := by
    rcases ha with ha | ⟨-, branch', g', hb', hg', ha⟩
    · exact .inl (Option.some.inj (ha.symm.trans hst))
    · cases (show following? t n = some branch from hf.follows).symm.trans hb'
      cases (show guardedAssign? t branch = some g from hf.assigns).symm.trans hg'
      exact .inr ha
  have hway : ∃ way, (foldedDeclaration t n branch ty start name g).unscoped? way = some (t.doc a) :=
    unscoped?_foldedDeclaration hparts
  rcases hparts with rfl | rfl | rfl
  · obtain ⟨haa, hka, hlook⟩ := lookupVariable?_start ht hl hn hk hst
    exact ⟨haa, hka, hway, fun _ _ => hlook _⟩
  · refine ⟨hC.alive ht hba, hC.expr, hway, fun hm hkm => ?_⟩
    rw [(lookupVariable?_guardedAssign ht (attached_alive hba) hf.assigns).1,
      hnext hf.condApart hm hkm]
  · refine ⟨hV.alive ht hba, hV.expr, hway, fun hm hkm => ?_⟩
    rw [(lookupVariable?_guardedAssign ht (attached_alive hba) hf.assigns).2,
      hnext hf.valueApart hm hkm]

theorem unnecessaryLocalBeforeReturn_keeps_names
    (hrev : ((unnecessaryLocalBeforeReturn.act n).runFrom x t es).tree.revision ≠ t.revision) :
    t.KeepsNames n (Copied t unnecessaryLocalBeforeReturn n)
      ((unnecessaryLocalBeforeReturn.act n).runFrom x t es).tree := by
  obtain ⟨p, i, ret, D, hp, hi, -, ⟨name, value, hret, rfl⟩, hs⟩ :=
    unnecessaryLocalBeforeReturn_spliced ht hl hn hrev
  have hk : t.kind n = .localVar name := hret.kind
  refine copiedNames_of_spliced ht hl hn hs hp hi (by rw [hk]; rfl) fun a ha => ?_
  have hne : unnecessaryLocalBeforeReturn ≠ conditionalAssignmentToTernary := fun he =>
    absurd (congrArg (fun r : Rule => r.info.id) he) (by decide)
  rcases ha with ha | ⟨he, -⟩
  · obtain rfl : value = a := Option.some.inj (hret.starts.symm.trans ha)
    obtain ⟨haa, hka, hlook⟩ := lookupVariable?_start ht hl hn hk ha
    exact ⟨haa, hka, ⟨[.slot 0], rfl⟩, fun _ _ => hlook _⟩
  · exact absurd he hne

end

/-- Where one of the rules changes a tree, all names of the expressions that it copies refer in the copies
to what they referred to: to the same node, or where that is in the expression itself, to its copy. -/
theorem windows_keep_names {r : Rule} (ht : t.Linked) (hl : t.Laid) (hn : t.isAttached n = true)
    (hr : r ∈ windowRules) (x : Edit.Setting) (es : List Event)
    (hrev : ((r.act n).runFrom x t es).tree.revision ≠ t.revision) :
    t.KeepsNames n (Copied t r n) ((r.act n).runFrom x t es).tree := by
  simp only [windowRules, List.mem_cons, List.not_mem_nil, or_false] at hr
  rcases hr with rfl | rfl
  · exact conditionalAssignmentToTernary_keeps_names ht hl hn hrev
  · exact unnecessaryLocalBeforeReturn_keeps_names ht hl hn hrev

/-- A document without a place in a text. -/
private abbrev unplaced (kind : NodeKind) (parts : List Doc) : Doc := .make kind .none parts []

/-- `{ int a = 1; F f = b -> a + b; return f; }` -/
def returnedLambda : UnitDoc := ⟨"T.java", .standard, [], .make .block .none []
  [unplaced (.localVar "a") [unplaced (.primitiveType .int) [], unplaced (.literal .int "1") []],
    unplaced (.localVar "f") [unplaced (.classType "F" false) [],
      .make (.lambda false) .none
        [unplaced (.binary .add) [unplaced (.nameExpr "a") [], unplaced (.nameExpr "b") []]]
        [.node (.param "b") .none none [none] []]],
    unplaced .returnStmt [unplaced (.nameExpr "f") []]]⟩

/-- In the lambda that is returned, one name refers to the variable that it referred to, and the other one
to the parameter of the copy. -/
theorem returnedLambda_keeps_names : ∃ s u, SourceUnit.ofDoc 1 returnedLambda = .ok s ∧
    ((unnecessaryLocalBeforeReturn.act 9).runFrom
      ⟨.unresolved, "UnnecessaryLocalBeforeReturn", 1⟩ s.tree []).tree = u ∧
    u.print = "\x7b\n    int a = 1;\n    return b -> a + b;\n\x7d" ∧
    s.tree.lookupVariable? 4 "a" = some 2 ∧ s.tree.lookupVariable? 5 "b" = some 7 ∧
    u.lookupVariable? 13 "a" = some 2 ∧ u.lookupVariable? 14 "b" = some 16 ∧
    s.tree.KeepsNames 9 (Copied s.tree unnecessaryLocalBeforeReturn 9) u := by
  have hload : SourceUnit.ofDoc 1 returnedLambda = .ok ⟨"T.java", .standard, [], _⟩ := rfl
  have hsound := (SourceUnit.ofDoc_sound hload).1
  refine ⟨_, _, hload, rfl, by decide +kernel, by decide, by decide, by decide +kernel,
    by decide +kernel, ?_⟩
  exact windows_keep_names hsound.linked hsound.laid (by decide) (.tail _ (.head _)) _ _ (by decide)

end Rules

end TreeTidy
