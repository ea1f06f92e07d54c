import Mathlib.Logic.Function.Basic
import TreeTidy.Proofs.Meaning.Evaluator
import TreeTidy.Proofs.Tree.Bounds
/-!
Executions of statements over a store of local variables and whatever else there is. What an expression
can do to the store is stated for one node at a time: without an effect of its own it does what its
operands do, and without a mention of a variable in it, it has nothing to do with the variable unless its
operands have.
-/
namespace TreeTidy.Meaning

open SyntaxTree

/-- A local variable: its declared type and its value. -/
structure Local (ρ φ : Type) where
  type : Doc
  value : Value ρ φ

/-- Local variables by name, and all else. -/
structure Store (γ ρ φ : Type) where
  locals : String → Option (Local ρ φ)
  heap : γ

namespace Store

variable {γ ρ φ : Type} (s : Store γ ρ φ) (x : String) (l l' : Option (Local ρ φ))

/-- The store with a variable declared, changed or dropped. -/
def set : Store γ ρ φ := { s with locals := Function.update s.locals x l }

@[simp] theorem locals_set_self : (s.set x l).locals x = l := Function.update_self ..

theorem locals_set_of_ne {y : String} (h : y ≠ x) : (s.set x l).locals y = s.locals y :=
  Function.update_of_ne h ..

@[simp] theorem set_set : (s.set x l).set x l' = s.set x l' := by
  simp [set]

theorem set_comm {y : String} (h : y ≠ x) : (s.set x l).set y l' = (s.set y l').set x l := by
  simp only [set, Function.update_comm h]

end Store

namespace Run

variable {γ ε ρ φ σ α β : Type}

/-- The run leaves every state as it is. -/
def Still (m : Run σ ε α) : Prop := ∀ s, (m.outcome s).2 = s

/-- The run has nothing to do with a variable: it neither reads nor writes it. -/
def Apart (x : String) (m : Run (Store γ ρ φ) ε α) : Prop :=
  ∀ s l, m.outcome (s.set x l) = ((m.outcome s).1, (m.outcome s).2.set x l)

/-- Looks at the state. -/
def look (f : σ → Except ε α) : Run σ ε α := ExceptT.mk fun s => (f s, s)

@[simp] theorem outcome_look (f : σ → Except ε α) (s : σ) : (look f).outcome s = (f s, s) := rfl

/-- Gives a variable a type and a value. -/
def assign (x : String) (l : Local ρ φ) : Run (Store γ ρ φ) ε Unit := modify (·.set x (some l))

@[simp] theorem outcome_assign (x : String) (l : Local ρ φ) (s : Store γ ρ φ) :
    (assign x l : Run (Store γ ρ φ) ε Unit).outcome s = (.ok (), s.set x (some l)) := rfl

/-- Gives a variable a type, and what a run gives as its value once it is converted. -/
def storing (convert : Value ρ φ → Except ε (Value ρ φ)) (x : String) (type : Doc)
    (m : Run (Store γ ρ φ) ε (Value ρ φ)) : Run (Store γ ρ φ) ε Unit := do
  let y ← m
  let y ← .ofExcept (convert y)
  .assign x ⟨type, y⟩

theorem Still.look (f : σ → Except ε α) : (Run.look f).Still := fun _ => rfl

theorem Still.ofExcept (e : Except ε α) : (Run.ofExcept e : Run σ ε α).Still := fun _ => rfl

theorem Still.bind {m : Run σ ε α} {f : α → Run σ ε β} (hm : m.Still) (hf : ∀ a, (f a).Still) :
    (m >>= f).Still := by
  intro s
  have hs := hm s
  rcases m.outcome_cases s with ⟨a, s', ha⟩ | ⟨e, s', he⟩
  · rw [ha] at hs
    rw [outcome_bind_ok ha]
    exact (hf a s').trans hs
  · rw [he] at hs
    rw [outcome_bind_error he]
    exact hs

theorem Apart.look {x : String} {f : Store γ ρ φ → Except ε α} (h : ∀ s l, f (s.set x l) = f s) :
    (Run.look f).Apart x := fun s l => Prod.ext (h s l) rfl

theorem Apart.assign {x y : String} (h : y ≠ x) (l : Local ρ φ) :
    (Run.assign y l : Run (Store γ ρ φ) ε Unit).Apart x := fun s l' =>
  Prod.ext rfl (s.set_comm x l' (some l) h)

theorem Apart.ofExcept (x : String) (e : Except ε α) :
    (Run.ofExcept e : Run (Store γ ρ φ) ε α).Apart x := fun _ _ => rfl

theorem Apart.bind {x : String} {m : Run (Store γ ρ φ) ε α} {f : α → Run (Store γ ρ φ) ε β}
    (hm : m.Apart x) (hf : ∀ a, (f a).Apart x) : (m >>= f).Apart x := by
  intro s l
  have hs := hm s l
  rcases m.outcome_cases s with ⟨a, s', ha⟩ | ⟨e, s', he⟩
  · rw [ha] at hs
    rw [outcome_bind_ok hs, outcome_bind_ok ha]
    exact hf a s' l
  · rw [he] at hs
    rw [outcome_bind_error hs, outcome_bind_error he]

variable {w : World ε ρ φ} {yes no : Run σ ε α}

theorem Still.branching {cond : Run σ ε (Value ρ φ)} (hc : cond.Still) (hy : yes.Still)
    (hn : no.Still) : (w.branching cond yes no).Still := by
  refine hc.bind fun y => (Still.ofExcept _).bind fun b => ?_
  cases b
  · exact hn
  · exact hy

theorem Apart.branching {x : String} {cond : Run (Store γ ρ φ) ε (Value ρ φ)}
    {yes no : Run (Store γ ρ φ) ε α} (hc : cond.Apart x) (hy : yes.Apart x) (hn : no.Apart x) :
    (w.branching cond yes no).Apart x := by
  refine hc.bind fun y => (Apart.ofExcept _ _).bind fun b => ?_
  cases b
  · exact hn
  · exact hy

end Run

/-- An execution of expressions and statements. An integer division by zero, an index out of range and
a field of `null` are exceptions. Declaring a variable and assigning to it convert the value to the
declared type. -/
structure Execution (γ ε ρ φ : Type) [DecidableEq ρ] extends
    Evaluator (Store γ ρ φ) ε ρ φ where
  exec : Doc → Run (Store γ ρ φ) ε Unit
  convert : Doc → Value ρ φ → Except ε (Value ρ φ)
  length : γ → ρ → Int
  zeroDivisor : ε
  outOfRange : ε
  eval_zeroDivisor : ∀ {d op a b p q m s s₁ s₂}, d.kind = .binary op → op = .div ∨ op = .rem →
    d.slot? 0 = some a → d.slot? 1 = some b →
    (eval a).outcome s = (.ok (.scalar (.whole p m)), s₁) →
    (eval b).outcome s₁ = (.ok (.scalar (.whole q 0)), s₂) →
    (eval d).outcome s = (.error zeroDivisor, s₂)
  eval_outOfRange : ∀ {d a i r p k s s₁ s₂}, d.kind = .arrayAccess → d.slot? 0 = some a →
    d.slot? 1 = some i → (eval a).outcome s = (.ok (.object r), s₁) →
    (eval i).outcome s₁ = (.ok (.scalar (.whole p k)), s₂) → k < 0 ∨ length s₂.heap r ≤ k →
    (eval d).outcome s = (.error outOfRange, s₂)
  eval_fieldOfNull : ∀ {d name a s s₁}, d.kind = .fieldAccess name → d.slot? 0 = some a →
    (eval a).outcome s = (.ok .null, s₁) → (eval d).outcome s = (.error world.nullPointer, s₁)
  eval_name : ∀ {d x s l}, d.kind = .nameExpr x → s.locals x = some l →
    (eval d).outcome s = (.ok l.value, s)
  eval_assign : ∀ {d target x a s l}, d.kind = .assign .assign → d.slot? 0 = some target →
    target.kind = .nameExpr x → d.slot? 1 = some a → s.locals x = some l →
    (eval d).outcome s = Run.outcome (do
      let y ← eval a
      let y ← .ofExcept (convert l.type y)
      .assign x ⟨l.type, y⟩
      pure y) s
  still : ∀ {d}, d.kind.isExpression = true → hasEffect d.kind = false →
    (∀ pos c, d.child? pos = some c → c.kind.isExpression = true → (eval c).Still) → (eval d).Still
  apart : ∀ {d x}, d.kind.isExpression = true → (d.All fun c => c.kind ≠ .nameExpr x) →
    (∀ pos c, d.child? pos = some c → c.kind.isExpression = true → (eval c).Apart x) →
    (eval d).Apart x
  exec_localVar : ∀ {d x ty a}, d.kind = .localVar x → d.slot? 0 = some ty → d.slot? 1 = some a →
    exec d = .storing (convert ty) x ty (eval a)
  exec_exprStmt : ∀ {d a}, d.kind = .exprStmt → d.slot? 0 = some a →
    exec d = eval a >>= fun _ => pure ()
  exec_ifStmt : ∀ {d c yes}, d.kind = .ifStmt → d.slot? 0 = some c → d.slot? 1 = some yes →
    d.slot? 2 = none →
    exec d = world.branching (eval c) (exec yes) (pure ())
  exec_block : ∀ {d a}, d.kind = .block → d.list = [a] → a.kind = .exprStmt → exec d = exec a

namespace Execution

variable {γ ε ρ φ : Type} [DecidableEq ρ] (E : Execution γ ε ρ φ)

/-- Without effects anywhere in it, an expression leaves the store as it is. -/
theorem still_of_effectFree (d : Doc) (hk : d.kind.isExpression = true)
    (h : d.All fun c => hasEffect c.kind = false) : (E.eval d).Still := by
  induction d using Doc.induction with
  | node kind span ty slots list hs hl =>
    refine E.still hk h.self fun pos c hc hck => ?_
    rcases Doc.exists_child?.mp ⟨pos, hc⟩ with hm | hm
    · exact hs c hm hck (h.child hc)
    · exact hl c hm hck (h.child hc)

/-- Without a mention of the variable anywhere in it, an expression has nothing to do with it. -/
theorem apart_of_unmentioned {x : String} (d : Doc) (hk : d.kind.isExpression = true)
    (h : d.All fun c => c.kind ≠ .nameExpr x) : (E.eval d).Apart x := by
  induction d using Doc.induction with
  | node kind span ty slots list hs hl =>
    refine E.apart hk h fun pos c hc hck => ?_
    rcases Doc.exists_child?.mp ⟨pos, hc⟩ with hm | hm
    · exact hs c hm hck (h.child hc)
    · exact hl c hm hck (h.child hc)

section

variable {t : SyntaxTree} {n a : NodeId} {x : String} (ht : t.Linked)
include ht

omit [DecidableEq ρ] in
/-- What the walk below a node does not find is nowhere in its document. -/
theorem all_of_anyKind {p : NodeKind → Bool} (h : t.anyKind p n = false) :
    (t.doc n).All fun d => p d.kind = false := by
  refine ht.forall_parts.mpr fun m hm => ?_
  rw [anyKind, List.any_eq_false] at h
  have hp := h m (mem_descendants_iff.mpr hm)
  rw [ht.kind_doc]
  exact Bool.not_eq_true _ ▸ hp

theorem eval_still (hk : (t.kind n).isExpression = true) (h : t.isEffectFree n = true) :
    (E.eval (t.doc n)).Still := by
  apply E.still_of_effectFree
  · rwa [ht.kind_doc]
  · exact all_of_anyKind ht (Bool.not_eq_true' _ ▸ h)

theorem eval_apart (hk : (t.kind n).isExpression = true) (h : t.mentions n x = false) :
    (E.eval (t.doc n)).Apart x := by
  apply E.apart_of_unmentioned
  · rwa [ht.kind_doc]
  · exact (all_of_anyKind ht h).mono fun c hc => by simpa using hc

end

end Execution

end TreeTidy.Meaning
