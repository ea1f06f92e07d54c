import TreeTidy.Proofs.Meaning.Value
import TreeTidy.Proofs.Rules.Comparison
/-!
Evaluators of expressions. An evaluator gives each expression a run over states, which may break off
with an exception. Literals, parentheses, negations and comparisons are evaluated as they have to be, from
left to right; all other expressions as one likes.
-/
namespace TreeTidy

namespace Meaning

/-- Runs over states that may break off with an exception. -/
abbrev Run (σ ε : Type) := ExceptT ε (StateM σ)

namespace Run

variable {σ ε α β : Type} {m : Run σ ε α} {f g : α → Run σ ε β} {P : α → Prop}

/-- What a run comes to from a state: a value or an exception, and the state left. -/
def outcome (m : Run σ ε α) (s : σ) : Except ε α × σ := m.run s

def ofExcept (e : Except ε α) : Run σ ε α := ExceptT.mk (pure e)

theorem ext {m m' : Run σ ε α} (h : ∀ s, m.outcome s = m'.outcome s) : m = m' := funext h

@[simp] theorem outcome_pure (a : α) (s : σ) : (pure a : Run σ ε α).outcome s = (.ok a, s) := rfl

@[simp] theorem outcome_ofExcept (e : Except ε α) (s : σ) :
    (ofExcept e : Run σ ε α).outcome s = (e, s) := rfl

theorem outcome_bind (s : σ) :
    (m >>= f).outcome s = (ExceptT.bindCont f (m.outcome s).1) (m.outcome s).2 := rfl

theorem outcome_bind_ok {s s' : σ} {a : α} (h : m.outcome s = (.ok a, s')) :
    (m >>= f).outcome s = (f a).outcome s' := by
  rw [outcome_bind, h]
  rfl

theorem outcome_bind_error {s s' : σ} {e : ε} (h : m.outcome s = (.error e, s')) :
    (m >>= f).outcome s = (.error e, s') := by
  rw [outcome_bind, h]
  rfl

theorem outcome_bind_congr {m' : Run σ ε α} {s : σ} (h : m.outcome s = m'.outcome s) :
    (m >>= f).outcome s = (m' >>= f).outcome s := by
  rw [outcome_bind, outcome_bind, h]

theorem outcome_cases (m : Run σ ε α) (s : σ) :
    (∃ a s', m.outcome s = (.ok a, s')) ∨ ∃ e s', m.outcome s = (.error e, s') := by
  cases h : (m.outcome s).1 with
  | ok a => exact .inl ⟨a, _, Prod.ext h rfl⟩
  | error e => exact .inr ⟨e, _, Prod.ext h rfl⟩

@[simp] theorem ofExcept_ok (a : α) : (ofExcept (.ok a) : Run σ ε α) = pure a := rfl

/-- Whatever value the run gives, it is such a one. -/
def Yields (m : Run σ ε α) (P : α → Prop) : Prop := ∀ s a s', m.outcome s = (.ok a, s') → P a

theorem Yields.pure {a : α} (h : P a) : (Pure.pure a : Run σ ε α).Yields P := by
  intro s b s' hb
  cases hb
  exact h

theorem Yields.ofExcept {e : Except ε α} (h : ∀ a, e = .ok a → P a) :
    (Run.ofExcept e : Run σ ε α).Yields P := by
  intro s a s' ha
  cases ha
  exact h a rfl

/-- What follows a run has to do the same only with the values that the run gives. -/
theorem Yields.bind_congr (h : m.Yields P) (hfg : ∀ a, P a → f a = g a) : m >>= f = m >>= g := by
  refine ext fun s => ?_
  rcases m.outcome_cases s with ⟨a, s', ha⟩ | ⟨e, s', he⟩
  · rw [outcome_bind_ok ha, outcome_bind_ok ha, hfg a (h s a s' ha)]
  · rw [outcome_bind_error he, outcome_bind_error he]

end Run

namespace World

variable {σ ε ρ φ : Type} (w : World ε ρ φ)

/-- Negates what a run gives. -/
def negating (m : Run σ ε (Value ρ φ)) : Run σ ε (Value ρ φ) := do
  let x ← m
  .ofExcept (w.negation x)

/-- Compares what two runs give, one after the other. -/
def comparing [DecidableEq ρ] (op : BinaryOp) (left right : Run σ ε (Value ρ φ)) :
    Run σ ε (Value ρ φ) := do
  let x ← left
  let y ← right
  .ofExcept (.bool <$> w.compare op x y)

/-- One of two runs, by what another one gives. -/
def branching {α : Type} (cond : Run σ ε (Value ρ φ)) (yes no : Run σ ε α) : Run σ ε α := do
  let y ← cond
  if (← .ofExcept (w.truth y)) then yes else no

section

variable {α : Type} {cond : Run σ ε (Value ρ φ)} {yes no : Run σ ε α} {s : σ}

theorem outcome_branching_ok {b : Bool} (h : (cond.outcome s).1.bind w.truth = .ok b) :
    (w.branching cond yes no).outcome s = (if b then yes else no).outcome (cond.outcome s).2 := by
  rcases cond.outcome_cases s with ⟨y, s', hy⟩ | ⟨e, s', he⟩
  · have hb : w.truth y = .ok b := by rwa [hy] at h
    rw [branching, Run.outcome_bind_ok hy, hb, hy]
    cases b <;> rfl
  · rw [he] at h
    cases h

theorem outcome_branching_error {e : ε} (h : (cond.outcome s).1.bind w.truth = .error e) :
    (w.branching cond yes no).outcome s = (.error e, (cond.outcome s).2) := by
  rcases cond.outcome_cases s with ⟨y, s', hy⟩ | ⟨e', s', he⟩
  · have hb : w.truth y = .error e := by rwa [hy] at h
    rw [branching, Run.outcome_bind_ok hy, hb, hy]
    rfl
  · rw [he] at h
    cases h
    rw [branching, Run.outcome_bind_error he, he]

end

end World

end Meaning

namespace Doc

variable {d a b : Doc} {level : Nat}

/-- The document is another one in any number of parentheses. -/
inductive Wraps : Doc → Doc → Prop
  | self (a : Doc) : Wraps a a
  | paren {d a b : Doc} (hk : d.kind = .paren) (hs : d.slot? 0 = some a) (h : Wraps a b) : Wraps d b

theorem wraps_atLevel (a : Doc) (level : Nat) : (a.atLevel level).Wraps a := by
  unfold atLevel
  split
  · exact .paren rfl rfl (.self a)
  · exact .self a

theorem wraps_placedAt (t : SyntaxTree) (site : NodeId) (a : Doc) : (a.placedAt t site).Wraps a := by
  unfold placedAt
  split
  · exact .paren rfl rfl (.self a)
  · exact .self a

/-- A call by that name without arguments on a receiver, which may be in parentheses. -/
def Calls (name : String) (receiver d : Doc) : Prop :=
  d.kind = .methodCall name ∧ d.list = [] ∧ ∃ r, d.slot? 0 = some r ∧ r.Wraps receiver

theorem calls_calledOn (receiver : Doc) (name : String) :
    Calls name receiver (receiver.calledOn name) :=
  ⟨rfl, rfl, _, rfl, wraps_atLevel receiver 13⟩

end Doc

namespace SyntaxTree

variable {t : SyntaxTree} {n r : NodeId} {name : String}

theorem Linked.wraps_stripWithin (ht : t.Linked) (fuel : Nat) (n : NodeId) :
    (t.doc n).Wraps (t.doc (t.stripWithin fuel n)) := by
  induction fuel generalizing n with
  | zero => exact .self _
  | succ fuel ih =>
    rw [stripWithin]
    split
    next inner hk hs =>
      refine .paren ?_ ?_ (ih inner)
      · rwa [ht.kind_doc]
      · rw [ht.slot?_doc, hs, Option.map_some]
    · exact .self _

theorem Linked.wraps_stripParens (ht : t.Linked) (n : NodeId) :
    (t.doc n).Wraps (t.doc (t.stripParens n)) := ht.wraps_stripWithin t.size n

theorem Linked.list_doc (ht : t.Linked) (n : NodeId) : (t.doc n).list = (t.list n).map t.doc := by
  rw [ht.doc_eq]
  rfl

theorem Linked.calls_doc (ht : t.Linked) (h : t.nullaryCall? n name = some r) :
    Doc.Calls name (t.doc r) (t.doc n) := by
  obtain ⟨hk, hr, hl⟩ := nullaryCall?_eq_some.mp h
  refine ⟨by rw [ht.kind_doc, hk], ?_, t.doc r, ?_, .self _⟩
  · rw [ht.list_doc, hl, List.map_nil]
  · rw [ht.slot?_doc, hr, Option.map_some]

end SyntaxTree

/-- What is counted is known to be a string, or a collection or a map. -/
def View.Counts (v : View) (method : String) (r : NodeId) : Prop :=
  method = "length" ∧ v.isString r = true ∨ method = "size" ∧ Rules.isSized v r = true

namespace Meaning

open SyntaxTree

/-- An evaluator of expressions. `Objects.equals` tells boxed values of one type apart by these. -/
structure Evaluator (σ ε ρ φ : Type) [DecidableEq ρ] where
  world : World ε ρ φ
  eval : Doc → Run σ ε (Value ρ φ)
  objectsEqual : Value ρ φ → Value ρ φ → Run σ ε (Value ρ φ)
  eval_paren : ∀ {d a}, d.kind = .paren → d.slot? 0 = some a → eval d = eval a
  eval_not : ∀ {d a}, d.kind = .unary .not → d.slot? 0 = some a →
    eval d = world.negating (eval a)
  eval_compare : ∀ {d op a b}, d.kind = .binary op → op.isEquality = true ∨ op.isRelational = true →
    d.slot? 0 = some a → d.slot? 1 = some b → eval d = world.comparing op (eval a) (eval b)
  eval_literal : ∀ {d sort text x}, d.kind = .literal sort text → literal? sort text = some x →
    eval d = pure x
  objectsEqual_bool : ∀ a b, objectsEqual (.bool a) (.bool b) = pure (.bool (a == b))
  objectsEqual_whole : ∀ p m n, objectsEqual (.scalar (.whole p m)) (.scalar (.whole p n)) =
    pure (.bool (m == n))

namespace Evaluator

variable {σ ε ρ φ : Type} [DecidableEq ρ] (E : Evaluator σ ε ρ φ) {t : SyntaxTree} {v : View}
  {n a b c : NodeId} {d A B : Doc} {op : BinaryOp}

theorem eval_wraps (h : d.Wraps A) : E.eval d = E.eval A := by
  induction h with
  | self a => rfl
  | paren hk hs _ ih => rw [E.eval_paren hk hs, ih]

theorem eval_placedAt (t : SyntaxTree) (n : NodeId) (A : Doc) :
    E.eval (A.placedAt t n) = E.eval A := E.eval_wraps (Doc.wraps_placedAt t n A)

theorem eval_negated (A : Doc) : E.eval A.negated = E.world.negating (E.eval A) := by
  rw [E.eval_not (a := A.atLevel 12) rfl rfl, E.eval_wraps (Doc.wraps_atLevel A 12)]

theorem eval_ite_negated (b : Prop) [Decidable b] (A : Doc) :
    E.eval (if b then A else A.negated) = if b then E.eval A else E.world.negating (E.eval A) := by
  split
  · rfl
  · exact E.eval_negated A

theorem eval_joined (h : op.isEquality = true ∨ op.isRelational = true) (A B : Doc) :
    E.eval (A.joined op B) = E.world.comparing op (E.eval A) (E.eval B) := by
  have he := E.eval_compare (d := A.joined op B) (a := A.atLevel (op.precedence + 1))
    (b := B.atLevel (op.precedence + 2)) rfl h rfl rfl
  rwa [E.eval_wraps (Doc.wraps_atLevel A _), E.eval_wraps (Doc.wraps_atLevel B _)] at he

section

variable (ht : t.Linked)
include ht

theorem eval_stripParens (n : NodeId) : E.eval (t.doc (t.stripParens n)) = E.eval (t.doc n) :=
  (E.eval_wraps (ht.wraps_stripParens n)).symm

theorem eval_negatedOperand (h : t.negatedOperand? n = some a) :
    E.eval (t.doc n) = E.world.negating (E.eval (t.doc a)) := by
  obtain ⟨hk, b, hb, rfl⟩ := negatedOperand?_eq_some.mp h
  rw [E.eval_stripParens ht]
  apply E.eval_not
  · rw [ht.kind_doc, hk]
  · rw [ht.slot?_doc, hb, Option.map_some]

theorem eval_comparison (hk : t.kind n = .binary op)
    (h : op.isEquality = true ∨ op.isRelational = true) (ha : t.slot? n 0 = some a)
    (hb : t.slot? n 1 = some b) :
    E.eval (t.doc n) = E.world.comparing op (E.eval (t.doc a)) (E.eval (t.doc b)) := by
  refine E.eval_compare ?_ h ?_ ?_
  · rw [ht.kind_doc, hk]
  · rw [ht.slot?_doc, ha, Option.map_some]
  · rw [ht.slot?_doc, hb, Option.map_some]

theorem eval_literal_node {sort : LiteralSort} {text : String} {x : Value ρ φ}
    (hk : t.kind (t.stripParens n) = .literal sort text) (hx : literal? sort text = some x) :
    E.eval (t.doc n) = pure x := by
  rw [← E.eval_stripParens ht]
  exact E.eval_literal (by rw [ht.kind_doc, hk]) hx

theorem eval_booleanLiteral {b : Bool} (h : t.booleanLiteral? (t.stripParens n) = some b) :
    E.eval (t.doc n) = pure (.bool b) := by
  unfold booleanLiteral? at h
  split at h
  next text hk =>
    cases h
    exact E.eval_literal_node ht hk rfl
  · cases h

theorem eval_nullLiteral (h : t.isNullLiteral (t.stripParens n) = true) :
    E.eval (t.doc n) = pure .null := by
  obtain ⟨text, hk⟩ := isNullLiteral_iff.mp h
  exact E.eval_literal_node ht hk rfl

theorem eval_intLiteral {k : Int} (h : t.intLiteral? (t.stripParens n) = some k)
    (hk : k = 0 ∨ k = 1) : E.eval (t.doc n) = pure (.int k) := by
  unfold intLiteral? at h
  split at h
  next text htext =>
    apply E.eval_literal_node ht htext
    rw [literal?, intOf?_of_intValue? h hk, Option.map_some]
  · cases h

end

/-- What the types of a view promise of the expressions at a node and below it. -/
structure Respects (v : View) (n : NodeId) : Prop where
  typed : ∀ {m p}, v.tree.Within m n → (v.tree.kind m).isExpression = true →
    v.primitive? m = some p → p ≠ .void → (E.eval (v.tree.doc m)).Yields (Value.OfType p)
  counted : ∀ {r method d}, v.tree.Within r n → v.Counts method r →
    Doc.Calls method (v.tree.doc r) d → (E.eval d).Yields Value.IsCount
  emptied : ∀ {r method d e}, v.tree.Within r n → v.Counts method r →
    Doc.Calls method (v.tree.doc r) d → Doc.Calls "isEmpty" (v.tree.doc r) e →
    E.eval e = E.eval d >>= fun count => pure (.bool count.isZero)
  equated : ∀ {c r a b cls}, v.tree.Within c n → Rules.staticPair? v.tree c "equals" = some (r, a, b) →
    v.tree.kind r = .typeName cls → v.namesClass r cls "java.util.Objects" = true →
    E.eval (v.tree.doc c) =
      E.eval (v.tree.doc a) >>= fun x => E.eval (v.tree.doc b) >>= fun y => E.objectsEqual x y

end Evaluator

end Meaning

end TreeTidy
