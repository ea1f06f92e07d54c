import Mathlib.Data.Finset.Card
import Mathlib.Data.Finset.Range
import TreeTidy.Proofs.Resolve.Grounded
import TreeTidy.Proofs.Tree.Settled
/-!
The types of the nodes of a tree. There is one way to give each node the type that follows from the types
it asks for, and inference finds it, with right answers from before or without.

A call that is pending has led to all the calls made within it, by questions, and no question leads back to
itself: so inference that keeps no answers makes no call within another one for the same node, and calls are
nested at most as deep as there are nodes.
-/
namespace TreeTidy

theorem SyntaxTree.Orderly.asks_wellFounded {t : SyntaxTree} (ht : t.Orderly) : WellFounded t.Asks :=
  SyntaxTree.asks_wellFounded ht.linked ht.admitted.alive

namespace Infer

open SyntaxTree (Asks Renamed)

variable {classes : ClassTable} {t u : SyntaxTree} {c n : NodeId} {ans ans' : NodeId → Resolution TypeDesc}

/-- Every node has the type that follows from the types of the others. -/
def IsTyping (classes : ClassTable) (t : SyntaxTree) (ans : NodeId → Resolution TypeDesc) : Prop :=
  ∀ n, ans n = nodeType (m := Id) classes t ans n

/-- Programs without effects have one value. -/
def Logic.plain : Logic Id where
  Holds x P := P x
  pure h := h
  bind hx hf := hf _ hx

/-- Programs that keep what is true of the answers. -/
def Logic.keeping (I : Answers → Prop) : Logic (StateM Answers) where
  Holds x P := ∀ s, I s → P (x s).1 ∧ I (x s).2
  pure h _ hs := ⟨h, hs⟩
  bind hx hf s hs := hf _ (hx s hs).1 _ (hx s hs).2

section Typing

/-- Answers to questions that are not asked do not matter. -/
theorem nodeType_congr (ht : t.Linked) (h : ∀ c, t.Asks c n → ans c = ans' c) :
    nodeType (m := Id) classes t ans n = nodeType (m := Id) classes t ans' n :=
  nodeType_gives Logic.plain (A := True) (.refl t) ht (fun c hc _ => h c hc) trivial

theorem exists_typing (classes : ClassTable) (ht : t.Linked) (hwf : WellFounded t.Asks) :
    ∃ ans, IsTyping classes t ans := by
  classical
  let step : ∀ n, (∀ c, t.Asks c n → Resolution TypeDesc) → Resolution TypeDesc := fun n rec =>
    nodeType (m := Id) classes t (fun c => if h : t.Asks c n then rec c h else .unknown) n
  refine ⟨hwf.fix step, fun n => ?_⟩
  rw [hwf.fix_eq]
  refine nodeType_congr ht fun c hc => ?_
  exact dif_pos hc

theorem IsTyping.unique (ht : t.Linked) (hwf : WellFounded t.Asks) (h : IsTyping classes t ans)
    (h' : IsTyping classes t ans') : ans = ans' := by
  funext n
  induction n using hwf.induction with
  | _ n ih => rw [h n, h' n, nodeType_congr ht ih]

end Typing

section Fuel

open Classical in
/-- The number of questions that one may lead to. -/
noncomputable def questions (t : SyntaxTree) (n : NodeId) : Nat :=
  ((Finset.range t.size).filter fun c => Relation.TransGen t.Asks c n).card

theorem questions_le (t : SyntaxTree) (n : NodeId) : questions t n ≤ t.size := by
  classical
  exact (Finset.card_filter_le _ _).trans (Finset.card_range _).le

open Classical in
theorem questions_lt (ht : t.Linked) (hwf : WellFounded t.Asks) (h : t.Asks c n) :
    questions t c < questions t n := by
  apply Finset.card_lt_card
  refine ⟨?_, ?_⟩
  · intro m hm
    simp only [Finset.mem_filter] at hm ⊢
    exact ⟨hm.1, hm.2.tail h⟩
  · intro hs
    have hc : c ∈ (Finset.range t.size).filter fun m => Relation.TransGen t.Asks m c :=
      hs (by simpa using ⟨h.lt_size ht, .single h⟩)
    exact hwf.transGen.irrefl.irrefl c (Finset.mem_filter.mp hc).2

end Fuel

section Answers

variable {V : NodeId → Prop}

/-- The answers about the nodes with the property are right. -/
def Right (ans : NodeId → Resolution TypeDesc) (V : NodeId → Prop) (s : Answers) : Prop :=
  ∀ n ty, s.lookup n = some ty → V n → ty = ans n

theorem right_nil (ans : NodeId → Resolution TypeDesc) (V : NodeId → Prop) : Right ans V [] := nofun

theorem Right.cons {s : Answers} {ty : Resolution TypeDesc} (h : Right ans V s) (hty : V n → ty = ans n) :
    Right ans V ((n, ty) :: s) := by
  intro m ty' hm hv
  rw [List.lookup_cons] at hm
  split at hm
  next he =>
    obtain rfl : m = n := by simpa using he
    obtain rfl := Option.some.inj hm
    exact hty hv
  next => exact h m ty' hm hv

theorem kept_gives {find : Ask (StateM Answers)}
    (h : (Logic.keeping (Right ans V)).Gives (V n) (find n) (ans n)) :
    (Logic.keeping (Right ans V)).Gives (V n) (kept find n) (ans n) := by
  intro s hs
  cases hl : s.lookup n with
  | some ty =>
    have hk : kept find n s = (ty, s) := by
      simp only [kept, bind, StateT.bind, get, getThe, MonadStateOf.get, StateT.get, pure, hl]
      rfl
    rw [hk]
    exact ⟨hs n ty hl, hs⟩
  | none =>
    have hk : kept find n s = ((find n s).1, (n, (find n s).1) :: (find n s).2) := by
      simp only [kept, bind, StateT.bind, get, getThe, MonadStateOf.get, StateT.get, pure, hl]
      rfl
    obtain ⟨hv, hr⟩ := h s hs
    rw [hk]
    exact ⟨hv, hr.cons hv⟩

/-- Inference finds the types, and all answers that it keeps are right. -/
theorem typeWithin_gives (ht : t.Linked) (hwf : WellFounded t.Asks) (h : IsTyping classes t ans)
    (hV : ∀ {c n}, t.Asks c n → V n → V c) (k : Nat) (n : NodeId) (hk : questions t n < k) :
    (Logic.keeping (Right ans V)).Gives (V n) (typeWithin classes t k n) (ans n) := by
  induction k generalizing n with
  | zero => exact absurd hk (Nat.not_lt_zero _)
  | succ k ih =>
    refine kept_gives ?_
    rw [h n]
    refine nodeType_gives _ (.refl t) ht fun c hc s hs => ?_
    have hlt := questions_lt ht hwf hc
    obtain ⟨hv, hr⟩ := ih c (by omega) s hs
    exact ⟨fun hn => hv (hV hc hn), hr⟩

theorem typeWithin_right (ht : t.Linked) (hwf : WellFounded t.Asks) (h : IsTyping classes t ans)
    (hV : ∀ {c n}, t.Asks c n → V n → V c) {s : Answers} (hs : Right ans V s) (n : NodeId) :
    (V n → (typeWithin classes t (t.size + 1) n s).1 = ans n) ∧
      Right ans V (typeWithin classes t (t.size + 1) n s).2 :=
  typeWithin_gives ht hwf h hV _ n (Nat.lt_succ_of_le (questions_le t n)) s hs

theorem typeOf_eq (ht : t.Linked) (hwf : WellFounded t.Asks) (h : IsTyping classes t ans) :
    typeOf classes t = ans := by
  funext n
  exact (typeWithin_right (V := fun _ => True) ht hwf h (fun _ h => h) (right_nil ans _) n).1 trivial

/-- What is inferred without answers from before is a typing. -/
theorem isTyping_typeOf (classes : ClassTable) (ht : t.Linked) (hwf : WellFounded t.Asks) :
    IsTyping classes t (typeOf classes t) := by
  obtain ⟨ans, h⟩ := exists_typing classes ht hwf
  rwa [typeOf_eq ht hwf h]

end Answers

/-- The types of nodes do not depend on their numbers, nor on what else the tree holds. -/
theorem typeOf_renamed (classes : ClassTable) {g : NodeId → NodeId} {k : Nat} (h : Renamed g k u t)
    (hu : u.Orderly) (ht : t.Orderly) (n : NodeId) : typeOf classes t (g n) = typeOf classes u n := by
  have hans : IsTyping classes u fun n => typeOf classes t (g n) := by
    intro n
    refine (isTyping_typeOf classes ht.linked ht.asks_wellFounded (g n)).trans ?_
    exact nodeType_gives Logic.plain (A := True) h hu.linked (fun _ _ _ => rfl) trivial
  exact (congrFun (typeOf_eq hu.linked hu.asks_wellFounded hans) n).symm

section Nesting

variable {classes : ClassTable} {t : SyntaxTree} {depth : Nat} {pending : List NodeId} {n : NodeId}

/-- Why a type is not found. -/
inductive Stuck
  /-- The type of the node is asked for while it is being found. -/
  | circular (n : NodeId)
  | tooDeep
  deriving DecidableEq, Repr

/-- The type of a node, with the types of all that it asks for found anew. The types of the pending nodes
are being found, and `depth` more calls may be nested in theirs. -/
def typeAbove (classes : ClassTable) (t : SyntaxTree) :
    (depth : Nat) → (pending : List NodeId) → NodeId → Except Stuck (Resolution TypeDesc)
  | 0, _, _ => .error .tooDeep
  | depth + 1, pending, n =>
    if n ∈ pending then .error (.circular n)
    else nodeType classes t (typeAbove classes t depth (n :: pending)) n

/-- Programs that end with a value. -/
def Logic.ending (ε : Type) : Logic (Except ε) where
  Holds x P := ∃ a, x = .ok a ∧ P a
  pure h := ⟨_, rfl, h⟩
  bind hx hf := by
    obtain ⟨a, rfl, ha⟩ := hx
    exact hf a ha

/-- Within calls that have led to a node, its type is found if there is room for its own questions. -/
theorem typeAbove_eq (ht : t.Linked) (hwf : WellFounded t.Asks)
    (hp : ∀ m ∈ pending, Relation.TransGen t.Asks n m) (hd : questions t n < depth) :
    typeAbove classes t depth pending n = .ok (typeOf classes t n) := by
  induction depth generalizing pending n with
  | zero => exact absurd hd (Nat.not_lt_zero _)
  | succ depth ih =>
    have hn : n ∉ pending := fun h => hwf.transGen.irrefl.irrefl n (hp n h)
    -- the calls for its questions stand one deeper, below its own
    have hcalls : ∀ c, t.Asks c n → (Logic.ending Stuck).Gives True
        (typeAbove classes t depth (n :: pending) c) (typeOf classes t c) := by
      intro c hc
      have hlt := questions_lt ht hwf hc
      refine ⟨_, ih (fun m hm => ?_) (by omega), fun _ => rfl⟩
      rcases List.mem_cons.mp hm with rfl | hm
      · exact .single hc
      · exact .head hc (hp m hm)
    obtain ⟨ty, hty, he⟩ := nodeType_gives _ (.refl t) ht hcalls
    rw [typeAbove, if_neg hn, isTyping_typeOf classes ht hwf n, ← he trivial]
    exact hty

/-- In a tree whose links agree and whose living nodes keep to their layouts, inference ends for every
node: no call is nested in one for the same node, the nodes there are bound the depth, and the type is the
one that is found with answers kept. -/
theorem inference_never_circular (classes : ClassTable) (ht : t.Linked) (ha : t.AliveAdmitted)
    (hd : t.size < depth) (n : NodeId) : typeAbove classes t depth [] n = .ok (typeOf classes t n) :=
  typeAbove_eq ht (SyntaxTree.asks_wellFounded ht ha) (fun _ hm => absurd hm List.not_mem_nil)
    ((questions_le t n).trans_lt hd)

/-- A detached block `int a = 0; var b = a; b;`, made from its leaves up. -/
def openTypes : List SyntaxTree.Operation :=
  [(.primitiveType .int, [], []), (.literal .int "0", [], []), (.localVar "a", [some 0, some 1], []),
    (.varType, [], []), (.nameExpr "a", [], []), (.localVar "b", [some 3, some 4], []),
    (.nameExpr "b", [], []), (.exprStmt, [some 6], []), (.block, [], [2, 5, 7])].map
      fun (kind, slots, list) => .create ⟨kind, Span.none, none, slots, list⟩

/-- The calls for the last name are nested six deep: they go to the variable, its open type, the value it
starts with, and from there to the type of the other variable. -/
theorem openTypes_never_circular : let t := SyntaxTree.history 0 openTypes
    t.Linked ∧ t.AliveAdmitted ∧ t.size = 9 ∧ t.isAlive 6 = true ∧ t.isAttached 6 = false ∧
      typeAbove .empty t 10 [] 6 = .ok (typeOf .empty t 6) ∧ typeOf .empty t 6 = .resolved .int ∧
      typeAbove .empty t 5 [] 6 = .error .tooDeep :=
  have hlinked := SyntaxTree.linked_history 0 openTypes
  have hadmitted := (SyntaxTree.admitted_history 0 openTypes).alive
  ⟨hlinked, hadmitted, by decide, by decide, by decide,
    inference_never_circular .empty hlinked hadmitted (by decide) 6, by decide, by decide⟩

end Nesting

end Infer

end TreeTidy
