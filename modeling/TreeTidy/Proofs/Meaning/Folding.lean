import TreeTidy.Print.Source
import TreeTidy.Proofs.Meaning.Interpreter
import TreeTidy.Proofs.Rules.Window
/-!
A conditional assignment folded into the declaration before it. Afterwards the condition comes before the
first value, which is left out where the assigned one is taken. As neither has an effect, nobody can tell
unless the first value fails: an exception that it was is one no more, or another one.
-/
namespace TreeTidy.Meaning

open SyntaxTree Rules

variable {γ ε ρ φ : Type}

namespace Run

/-- Two ways for statements to end: with one store, or with one exception and stores that are the same
but for a variable, of which nothing is left then. -/
inductive Alike (x : String) : Except ε Unit × Store γ ρ φ → Except ε Unit × Store γ ρ φ → Prop
  | done {s} : Alike x (.ok (), s) (.ok (), s)
  | thrown {e s s'} (h : s.set x none = s'.set x none) : Alike x (.error e, s) (.error e, s')

theorem Alike.fst_eq {x : String} {o o' : Except ε Unit × Store γ ρ φ} (h : Alike x o o') :
    o.1 = o'.1 := by
  cases h <;> rfl

variable {convert : Value ρ φ → Except ε (Value ρ φ)} {x : String} {type : Doc}
  {m : Run (Store γ ρ φ) ε (Value ρ φ)} {s s' : Store γ ρ φ} {y z : Value ρ φ} {e : ε}

theorem outcome_storing_ok (hm : m.outcome s = (.ok y, s')) (hy : convert y = .ok z) :
    (storing convert x type m).outcome s = (.ok (), s'.set x (some ⟨type, z⟩)) := by
  rw [storing, outcome_bind_ok hm, hy]
  rfl

theorem outcome_storing_error (h : (m.outcome s).1.bind convert = .error e) :
    (storing convert x type m).outcome s = (.error e, (m.outcome s).2) := by
  rcases m.outcome_cases s with ⟨y, s', hy⟩ | ⟨e', s', he⟩
  · have hc : convert y = .error e := by rwa [hy] at h
    rw [storing, outcome_bind_ok hy, hc, hy]
    rfl
  · rw [he] at h
    cases h
    rw [storing, outcome_bind_error he, he]

/-- What a run without effects gives is stored, or there is an exception and the store is as it was. -/
theorem Still.storing_cases (hm : m.Still) (convert : Value ρ φ → Except ε (Value ρ φ)) (x : String)
    (type : Doc) (s : Store γ ρ φ) :
    (∃ z, (storing convert x type m).outcome s = (.ok (), s.set x (some ⟨type, z⟩))) ∨
      ∃ e, (storing convert x type m).outcome s = (.error e, s) := by
  have hs := hm s
  cases hb : (m.outcome s).1.bind convert with
  | error e => exact .inr ⟨e, by rw [outcome_storing_error hb, hs]⟩
  | ok z =>
    rcases m.outcome_cases s with ⟨y, s', hy⟩ | ⟨e, s', he⟩
    · rw [hy] at hb hs
      obtain rfl : s' = s := hs
      exact .inl ⟨z, outcome_storing_ok hy hb⟩
    · rw [he] at hb
      cases hb

/-- Nobody can tell what a variable was before it was given what a run gives that does not mention it. -/
theorem Apart.storing_alike (hm : m.Apart x) (l : Option (Local ρ φ)) :
    Alike x ((storing convert x type m).outcome (s.set x l)) ((storing convert x type m).outcome s) := by
  have hs := hm s l
  cases hb : (m.outcome s).1.bind convert with
  | error e =>
    have hb' : (m.outcome (s.set x l)).1.bind convert = .error e := by rwa [hs]
    rw [outcome_storing_error hb, outcome_storing_error hb', hs]
    exact .thrown (Store.set_set ..)
  | ok z =>
    rcases m.outcome_cases s with ⟨y, s', hy⟩ | ⟨e, s', he⟩
    · rw [hy] at hs hb
      rw [outcome_storing_ok hy hb, outcome_storing_ok hs hb, Store.set_set]
      exact .done
    · rw [he] at hb
      cases hb

section

variable (w : World ε ρ φ) {first cond other : Run (Store γ ρ φ) ε (Value ρ φ)}
  {assigning : Run (Store γ ρ φ) ε Unit}

/-- Where the first value is stored, nobody can tell whether the condition came before it. -/
theorem folding_alike_of_stored (hc : cond.Still) (hcx : cond.Apart x) (ho : other.Apart x)
    (ha : ∀ s z, s.locals x = some ⟨type, z⟩ →
      assigning.outcome s = (storing convert x type other).outcome s)
    (hz : (storing convert x type first).outcome s = (.ok (), s.set x (some ⟨type, z⟩))) :
    Alike x ((w.branching cond assigning (pure ())).outcome (s.set x (some ⟨type, z⟩)))
      ((storing convert x type (w.branching cond other first)).outcome s) := by
  -- the condition gives the same with the variable set
  have hset := hcx s (some ⟨type, z⟩)
  rw [hc s] at hset
  cases hb : (cond.outcome s).1.bind w.truth with
  | error e =>
    have hb' : (cond.outcome (s.set x (some ⟨type, z⟩))).1.bind w.truth = .error e := by rwa [hset]
    have hnew : (w.branching cond other first).outcome s = (.error e, (cond.outcome s).2) :=
      w.outcome_branching_error hb
    rw [w.outcome_branching_error hb', hset, outcome_storing_error (by rw [hnew]; rfl), hnew, hc s]
    exact .thrown (Store.set_set ..)
  | ok b =>
    have hb' : (cond.outcome (s.set x (some ⟨type, z⟩))).1.bind w.truth = .ok b := by rwa [hset]
    have hnew : (storing convert x type (w.branching cond other first)).outcome s =
        (storing convert x type (if b then other else first)).outcome s := by
      apply outcome_bind_congr
      rw [w.outcome_branching_ok hb, hc s]
    rw [w.outcome_branching_ok hb', hset, hnew]
    cases b with
    | true =>
      have hassign := ha (s.set x (some ⟨type, z⟩)) z (s.locals_set_self x _)
      show Alike x (assigning.outcome _) _
      rw [hassign]
      exact ho.storing_alike _
    | false =>
      show Alike x _ ((storing convert x type first).outcome s)
      rw [hz]
      exact .done

/-- A variable gets a value that has no effect, and then perhaps another one; or else one or the other
from the start. The two are alike if and only if, wherever the first value fails, it does so in both. -/
theorem folding_alike_iff (hf : first.Still) (hc : cond.Still) (hcx : cond.Apart x)
    (ho : other.Apart x)
    (ha : ∀ s z, s.locals x = some ⟨type, z⟩ →
      assigning.outcome s = (storing convert x type other).outcome s) (s : Store γ ρ φ) :
    Alike x ((storing convert x type first >>= fun _ =>
          w.branching cond assigning (pure ())).outcome s)
        ((storing convert x type (w.branching cond other first)).outcome s) ↔
      ∀ e, ((storing convert x type first).outcome s).1 = .error e →
        Alike x (.error e, s) ((storing convert x type (w.branching cond other first)).outcome s) := by
  rcases hf.storing_cases convert x type s with ⟨z, hz⟩ | ⟨e, he⟩
  · have halike := folding_alike_of_stored w hc hcx ho ha hz
    rw [outcome_bind_ok hz, hz]
    exact iff_of_true halike fun e h => by cases h
  · rw [outcome_bind_error he, he]
    constructor
    · intro h e' he'
      cases he'
      exact h
    · exact fun h => h e rfl

end

end Run

variable [DecidableEq ρ] (E : Execution γ ε ρ φ)

/-- A choice between expressions of one type is evaluated by its condition. -/
def Execution.Chooses (v : View) : Prop :=
  ∀ {d cond a b}, haveSameType v a b = true → d.kind = .conditional → d.slot? 0 = some cond →
    d.slot? 1 = some (v.tree.doc a) → d.slot? 2 = some (v.tree.doc b) →
    E.eval d = E.world.branching (E.eval cond) (E.eval (v.tree.doc a)) (E.eval (v.tree.doc b))

section

variable {t : SyntaxTree} {n branch ty start : NodeId} {name : String} {g : GuardedAssign}
  (ht : t.Linked)
include ht

theorem exec_declaration (hk : t.kind n = .localVar name) (hty : t.slot? n 0 = some ty)
    (hs : t.slot? n 1 = some start) : E.exec (t.doc n) =
      .storing (E.convert (t.doc ty)) name (t.doc ty) (E.eval (t.doc start)) := by
  apply E.exec_localVar
  · rw [ht.kind_doc, hk]
  · rw [ht.slot?_doc, hty, Option.map_some]
  · rw [ht.slot?_doc, hs, Option.map_some]

theorem exec_singleStatement {yes stmt : NodeId} (h : t.singleStatement? yes = some stmt)
    (hk : t.kind stmt = .exprStmt) : E.exec (t.doc yes) = E.exec (t.doc stmt) := by
  unfold singleStatement? at h
  split at h
  next hb =>
    split at h
    next only hlist =>
      obtain rfl := Option.some.inj h
      apply E.exec_block
      · rw [ht.kind_doc, hb]
      · rw [ht.list_doc, hlist, List.map_singleton]
      · rw [ht.kind_doc, hk]
    · cases h
  · obtain rfl := Option.some.inj h
    rfl

/-- A conditional assignment is a branch with an assignment to a variable that is there. -/
theorem exec_guardedAssign (h : guardedAssign? t branch = some g) : ∃ assigning,
    E.exec (t.doc branch) = E.world.branching (E.eval (t.doc g.cond)) assigning (pure ()) ∧
      ∀ s l, s.locals g.name = some l → assigning.outcome s =
        (Run.storing (E.convert l.type) g.name l.type (E.eval (t.doc g.value))).outcome s := by
  obtain ⟨hk, hno, hc, yes, stmt, assign, target, hy, hs, hks, ha, hka, htarget, hname, hv⟩ :=
    guardedAssign?_parts h
  refine ⟨E.exec (t.doc yes), ?_, fun s l hl => ?_⟩
  · apply E.exec_ifStmt
    · rw [ht.kind_doc, hk]
    · rw [ht.slot?_doc, hc, Option.map_some]
    · rw [ht.slot?_doc, hy, Option.map_some]
    · rw [ht.slot?_doc, hno, Option.map_none]
  · have hstmt : E.exec (t.doc stmt) = E.eval (t.doc assign) >>= fun _ => pure () := by
      apply E.exec_exprStmt
      · rw [ht.kind_doc, hks]
      · rw [ht.slot?_doc, ha, Option.map_some]
    have hkd : (t.doc assign).kind = .assign .assign := by rw [ht.kind_doc, hka]
    have htd : (t.doc assign).slot? 0 = some (t.doc target) := by
      rw [ht.slot?_doc, htarget, Option.map_some]
    have hnd : (t.doc target).kind = .nameExpr g.name := by rw [ht.kind_doc, hname]
    have hvd : (t.doc assign).slot? 1 = some (t.doc g.value) := by
      rw [ht.slot?_doc, hv, Option.map_some]
    rw [exec_singleStatement E ht hs hks, hstmt,
      Run.outcome_bind_congr (E.eval_assign hkd htd hnd hvd hl)]
    simp only [Run.storing, bind_assoc, pure_bind, bind_pure_unit]

end

/-- Folded into one declaration, the two statements do what they did if and only if, wherever the first
value makes the declaration fail, the folded one fails with the same exception. -/
theorem Execution.folding_alike_iff {v : View} {n branch ty start : NodeId} {name : String}
    {g : GuardedAssign} (ht : v.tree.Linked) (hl : v.tree.Laid) (hn : v.tree.isAttached n = true)
    (hE : E.Chooses v) (hf : Foldable v n branch ty start name g) (s : Store γ ρ φ) :
    Run.Alike name
        ((E.exec (v.tree.doc n) >>= fun _ => E.exec (v.tree.doc branch)).outcome s)
        ((E.exec (foldedDeclaration v.tree n branch ty start name g)).outcome s) ↔
      ∀ e, ((E.exec (v.tree.doc n)).outcome s).1 = .error e → Run.Alike name (.error e, s)
        ((E.exec (foldedDeclaration v.tree n branch ty start name g)).outcome s) := by
  have hba := following?_attached ht hn hf.follows
  obtain ⟨hC, hV, -⟩ := guardedAssign?_sound ht hl hba hf.assigns
  have hS := hl.subExpr_slot ht hn .refl (i := 1) (by rw [hf.kind]; rfl) hf.starts
  obtain ⟨assigning, hbranch, hassign⟩ := exec_guardedAssign E ht hf.assigns
  have hfolded : E.exec (foldedDeclaration v.tree n branch ty start name g) =
      .storing (E.convert (v.tree.doc ty)) name (v.tree.doc ty)
        (E.world.branching (E.eval (v.tree.doc g.cond)) (E.eval (v.tree.doc g.value))
          (E.eval (v.tree.doc start))) := by
    rw [E.exec_localVar (x := name) rfl rfl rfl, hE hf.sameType rfl rfl rfl rfl,
      E.eval_wraps (Doc.wraps_atLevel _ _)]
  rw [exec_declaration E ht hf.kind hf.typed hf.starts, hbranch, hfolded]
  refine Run.folding_alike_iff E.world (E.eval_still ht hS.expr hf.startFree)
    (E.eval_still ht hC.expr hf.condFree) (E.eval_apart ht hC.expr hf.condApart)
    (E.eval_apart ht hV.expr hf.valueApart) (fun s z hz => ?_) s
  rw [← hf.named] at hz ⊢
  exact hassign s _ hz

/-- Where the rule changes a tree, one declaration takes the place of two statements of a block. From any
store the block goes on as it did, if and only if it does so where the value that came first fails. -/
theorem folding_keeps_behaviour_iff {t : SyntaxTree} {n : NodeId} (ht : t.Linked) (hl : t.Laid)
    (hn : t.isAttached n = true) (x : Edit.Setting) (es : List Event)
    (hE : E.Chooses ⟨t, x.resolver, x.rule, x.pass⟩)
    (hrev : ((conditionalAssignmentToTernary.act n).runFrom x t es).tree.revision ≠ t.revision) :
    ∃ name branch p i D, t.kind n = .localVar name ∧ t.parent? n = some p ∧
      (t.list p)[i]? = some n ∧ (t.list p)[i + 1]? = some branch ∧
      t.Becomes p ((t.doc p).withList (((t.list p).take i).map t.doc ++ [D] ++
        ((t.list p).drop (i + 2)).map t.doc))
        ((conditionalAssignmentToTernary.act n).runFrom x t es).tree ∧
      ∀ s, (Run.Alike name
          ((E.exec (t.doc n) >>= fun _ => E.exec (t.doc branch)).outcome s) ((E.exec D).outcome s) ↔
        ∀ e, ((E.exec (t.doc n)).outcome s).1 = .error e →
          Run.Alike name (.error e, s) ((E.exec D).outcome s)) := by
  obtain ⟨p, i, branch, D, hp, hi, hmi, ⟨name, ty, start, g, hf, rfl⟩, hu⟩ :=
    conditionalAssignmentToTernary_spliced ht hl hn hrev
  exact ⟨name, branch, p, i, _, hf.kind, hp, hi, hmi, hu.becomes,
    fun s => E.folding_alike_iff ht hl hn hE hf s⟩

section Witness

open Interpreter

/-- `{ int x = a; if (c) x = 2; }` -/
def assignedTwice (a : Doc) : Doc := .make .block .none []
  [plain (.localVar "x") [plain (.primitiveType .int) [], a],
    .node .ifStmt .none none [some (plain (.nameExpr "c") []),
      some (plain .exprStmt [plain (.assign .assign) [plain (.nameExpr "x") [], number "2"]]), none] []]

/-- The interpreter chooses between any expressions alike. -/
theorem chooses (v : View) : execution.Chooses v := by
  intro d cond a b _ hk hc ha hb
  obtain ⟨kind, span, ty, slots, list⟩ := d
  cases hk
  obtain ⟨rest, rfl⟩ := slots_of_slots hc ha
  have hrest : ((Doc.node .conditional span ty rest list).slot? 0) = some (v.tree.doc b) := hb
  obtain ⟨rest', rfl⟩ := slots_of_slot hrest
  rfl

/-- A first value that cannot fail is left out, and nobody can tell. -/
theorem assignedTwice_alike : ∃ u D, (treeOf (assignedTwice (number "1"))).Becomes 9
      (.make .block .none [] [D]) u ∧
    ((conditionalAssignmentToTernary.act 2).runFrom
      ⟨.scope .empty, "ConditionalAssignmentToTernary", 1⟩ (treeOf (assignedTwice (number "1"))) []).tree = u ∧
    u.print = "\x7b\n    int x = c ? 2 : 1;\n\x7d" ∧
    ∀ s, Run.Alike "x" ((exec ((treeOf (assignedTwice (number "1"))).doc 2) >>= fun _ =>
      exec ((treeOf (assignedTwice (number "1"))).doc 8)).outcome s) ((exec D).outcome s) := by
  have hsound := treeOf_sound (d := assignedTwice (number "1")) rfl
  obtain ⟨name, branch, p, i, D, hk, hp, hi, hb, hu, hD⟩ := folding_keeps_behaviour_iff execution
    hsound.linked hsound.laid (n := 2) (by decide)
    ⟨.scope .empty, "ConditionalAssignmentToTernary", 1⟩ [] (chooses _) (by decide)
  obtain rfl : "x" = name := by
    cases hk
    rfl
  obtain rfl : 9 = p := Option.some.inj hp
  obtain rfl : 0 = i := by
    have hnodup : (treeOf (assignedTwice (number "1"))).list 9 = [2, 8] := rfl
    rw [hnodup] at hi
    rcases i with - | - | i
    · rfl
    · cases hi
    · cases hi
  obtain rfl : 8 = branch := Option.some.inj hb
  refine ⟨_, D, hu, rfl, by decide +kernel, fun s => (hD s).mpr fun e he => ?_⟩
  have hone : exec ((treeOf (assignedTwice (number "1"))).doc 2) =
      .storing (convert (plain (.primitiveType .int) [])) "x" (plain (.primitiveType .int) [])
        (pure (.int 1)) :=
    congrArg (Run.storing _ _ _) (eval_number (by decide +kernel))
  have hok : (exec ((treeOf (assignedTwice (number "1"))).doc 2)).outcome s =
      (.ok (), s.set "x" (some ⟨plain (.primitiveType .int) [], .int 1⟩)) := by
    rw [hone]
    rfl
  cases (congrArg Prod.fst hok).symm.trans he

/-- `1 / 0` -/
def failing : Doc := plain (.binary .div) [number "1", number "0"]

/-- A first value that fails is left out, and with it the failure. -/
theorem assignedTwice_not_alike : ∃ u s, (treeOf (assignedTwice failing)).Linked ∧
    (treeOf (assignedTwice failing)).Laid ∧ (treeOf (assignedTwice failing)).isAttached 4 = true ∧
    execution.Chooses
      ⟨treeOf (assignedTwice failing), .scope .empty, "ConditionalAssignmentToTernary", 1⟩ ∧
    ((conditionalAssignmentToTernary.act 4).runFrom
      ⟨.scope .empty, "ConditionalAssignmentToTernary", 1⟩ (treeOf (assignedTwice failing)) []).tree = u ∧
    (treeOf (assignedTwice failing)).list 11 = [4, 10] ∧ u.list 11 = [19] ∧
    ((exec ((treeOf (assignedTwice failing)).doc 4) >>= fun _ =>
      exec ((treeOf (assignedTwice failing)).doc 10)).outcome s).1 = .error .zeroDivisor ∧
    ((exec (u.doc 19)).outcome s).1 = .ok () ∧
    ¬ Run.Alike "x" ((exec ((treeOf (assignedTwice failing)).doc 4) >>= fun _ =>
      exec ((treeOf (assignedTwice failing)).doc 10)).outcome s) ((exec (u.doc 19)).outcome s) := by
  have hsound := treeOf_sound (d := assignedTwice failing) rfl
  let l : Local Object Approx := ⟨plain (.primitiveType .boolean) [], .bool true⟩
  let s : Memory := ⟨fun y => if y = "c" then some l else none, ⟨fun _ => [], fun _ _ => none⟩⟩
  have hbefore : ((exec ((treeOf (assignedTwice failing)).doc 4) >>= fun _ =>
      exec ((treeOf (assignedTwice failing)).doc 10)).outcome s).1 = .error .zeroDivisor := by
    decide +kernel
  have hafter : ((exec (((conditionalAssignmentToTernary.act 4).runFrom
      ⟨.scope .empty, "ConditionalAssignmentToTernary", 1⟩
      (treeOf (assignedTwice failing)) []).tree.doc 19)).outcome s).1 = .ok () := by
    decide +kernel
  refine ⟨_, s, hsound.linked, hsound.laid, by decide, chooses _, rfl, rfl, rfl, hbefore, hafter, ?_⟩
  intro h
  have hsame := h.fst_eq
  rw [hbefore, hafter] at hsame
  cases hsame

end Witness

end TreeTidy.Meaning
