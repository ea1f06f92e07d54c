import TreeTidy.Proofs.Source.Halting
/-!
Reading expressions and statements comes to an end. Each reader has a rank, which is the fuel beyond ten
pieces for each unit of weight: a reader that takes nothing before it calls another one has a higher rank
than that one, and no rank is more than ten above another.
-/
namespace TreeTidy.Reader

variable {α β : Type} {q : Prop} {s v n d : Nat} {c : Cursor} {Q : β → Cursor → Prop}

/-- The reader comes to an end; it takes part of the weight if it gives something, and nothing else. -/
def MayTake (d n : Nat) (x : Reader (Option α)) : Prop :=
  ∀ c : Cursor, Halts (10 * c.weight + d ≤ n) c.stop x c fun o c' =>
    if o.isSome then c'.weight < c.weight else c' = c

theorem MayTake.bind {x : Reader (Option α)} {f : Option α → Reader β} (hx : MayTake d n x)
    (hs : c.stop = s) (hq : q → 10 * c.weight + d ≤ n)
    (hsome : ∀ a (c' : Cursor), c'.stop = s → c'.weight < c.weight → Halts q s (f (some a)) c' Q)
    (hnone : Halts q s (f none) c Q) : Halts q s (x >>= f) c Q := by
  subst hs
  refine ((hx c).mono hq fun _ _ => id).bind fun o c' hs' ho => ?_
  cases o with
  | none =>
    cases ho
    exact hnone
  | some a => exact hsome a c' hs' ho

/-- With so much fuel the readers of expressions and statements come to an end. -/
structure BodiesHalt (n : Nat) : Prop where
  expression : Takes 6 n (expression n)
  lambda? : MayTake 1 n (lambda? n)
  conditional : Takes 5 n (conditional n)
  operation : ∀ least, Takes 4 n (operation n least)
  operatorsAfter : ∀ least left, Leaves 1 n (operatorsAfter n least left)
  unary : Takes 3 n (unary n)
  suffixesAfter : ∀ e, Leaves 1 n (suffixesAfter n e)
  primary : Takes 2 n (primary n)
  inParens : Takes 1 n (inParens n)
  arguments : Takes 1 n (arguments n)
  argumentsFrom : Takes 7 n (argumentsFrom n)
  block : Takes 1 n (block n)
  statements : Takes 9 n (statements n)
  statement : Takes 8 n (statement n)
  simpleStatement : Takes 7 n (simpleStatement n)

namespace BodiesHalt

/-! Expressions -/

theorem expression_succ (h : BodiesHalt n) : Takes 6 (n + 1) (Reader.expression (n + 1)) := by
  intro c
  rw [Reader.expression]
  refine h.lambda?.bind rfl (by omega) (fun d c₁ hs₁ hw₁ => .pure hs₁ hw₁) ?_
  refine h.conditional.bind rfl (by omega) fun left c₁ hs₁ hw₁ => .peek ?_
  split
  case h_1 m hm =>
    split
    · refine .skip_one hs₁ (ne_nil_of_head? hm) fun c₂ hs₂ hw₂ => ?_
      refine h.expression.bind hs₂ (by omega) fun right c₃ hs₃ hw₃ => ?_
      exact .give hs₃ (by omega)
    · exact .pure hs₁ hw₁
  · exact .pure hs₁ hw₁

theorem lambda?_succ (h : BodiesHalt n) : MayTake 1 (n + 1) (Reader.lambda? (n + 1)) := by
  intro c
  rw [Reader.lambda?]
  refine .rest ?_
  split
  case h_1 => exact .pure rfl rfl
  case h_2 form hform =>
    have hne : c.rest ≠ [] := by
      intro hc
      rw [hc] at hform
      cases hform
    have hbody : ∀ ps {c₁ : Cursor}, c₁.stop = c.stop → c₁.weight < c.weight →
        Halts (10 * c.weight + 1 ≤ n + 1) c.stop (do
          expect "->"
          let body ← if ← isAt "\x7b" then Reader.block n else Reader.expression n
          pure (some (Doc.plain (.lambda (form == .parenthesized)) [some body] ps))) c₁
          fun o c' => if o.isSome then c'.weight < c.weight else c' = c := by
      intro ps c₁ hs₁ hw₁
      refine .expect hs₁ fun c₂ hs₂ hw₂ => .isAt ?_
      split
      · refine h.block.bind hs₂ (by omega) fun body c₃ hs₃ hw₃ => .pure hs₃ ?_
        simp only [Option.isSome_some, if_true]
        omega
      · refine h.expression.bind hs₂ (by omega) fun body c₃ hs₃ hw₃ => .pure hs₃ ?_
        simp only [Option.isSome_some, if_true]
        omega
    cases form with
    | single => exact .identifier rfl fun name c₁ hs₁ hw₁ => hbody _ hs₁ hw₁
    | parenthesized =>
      refine .skip_one rfl hne fun c₁ hs₁ hw₁ => ?_
      exact (takes_lambdaParams n).bind hs₁ (by omega) fun ps c₂ hs₂ hw₂ => hbody ps hs₂ (by omega)

theorem conditional_succ (h : BodiesHalt n) : Takes 5 (n + 1) (Reader.conditional (n + 1)) := by
  intro c
  rw [Reader.conditional]
  refine (h.operation 1).bind rfl (by omega) fun condition c₁ hs₁ hw₁ => ?_
  refine .takes_ite hs₁ (fun c₂ hs₂ hw₂ => ?_) (.pure hs₁ hw₁)
  refine h.expression.bind hs₂ (by omega) fun chosen c₃ hs₃ hw₃ => .expect hs₃ fun c₄ hs₄ hw₄ => ?_
  refine h.lambda?.bind hs₄ (by omega) (fun d c₅ hs₅ hw₅ => .give hs₅ (by omega)) ?_
  refine h.conditional.bind hs₄ (by omega) fun otherwise c₅ hs₅ hw₅ => ?_
  exact .give hs₅ (by omega)

theorem operation_succ (h : BodiesHalt n) (least : Nat) :
    Takes 4 (n + 1) (Reader.operation (n + 1) least) := by
  intro c
  rw [Reader.operation]
  refine h.unary.bind rfl (by omega) fun first c₁ hs₁ hw₁ => ?_
  exact (h.operatorsAfter least first).last hs₁ (by omega) hw₁

theorem operatorsAfter_succ (h : BodiesHalt n) (least : Nat) (left : Doc) :
    Leaves 1 (n + 1) (Reader.operatorsAfter (n + 1) least left) := by
  intro c
  rw [Reader.operatorsAfter]
  have hleft : Halts (10 * c.weight + 1 ≤ n + 1) c.stop (pure left : Reader Doc) c
      (Below (c.weight + 1)) := .pure rfl (Nat.lt_succ_self _)
  refine .peek ?_
  split
  case h_1 w hw =>
    split
    · refine .skip_one rfl (ne_nil_of_head? hw) fun c₁ hs₁ hw₁ => ?_
      refine (takes_type n).bind hs₁ (by omega) fun ty c₂ hs₂ hw₂ => ?_
      exact (h.operatorsAfter _ _).last hs₂ (by omega) (by omega)
    · exact hleft
  case h_2 m hm =>
    split
    · split
      · refine .skip_one rfl (ne_nil_of_head? hm) fun c₁ hs₁ hw₁ => ?_
        refine (h.operation _).bind hs₁ (by omega) fun right c₂ hs₂ hw₂ => ?_
        exact (h.operatorsAfter _ _).last hs₂ (by omega) (by omega)
      · exact hleft
    · exact hleft
  · exact hleft

theorem unary_succ (h : BodiesHalt n) : Takes 3 (n + 1) (Reader.unary (n + 1)) := by
  intro c
  rw [Reader.unary]
  refine .peek ?_
  split
  case h_1 op hop =>
    obtain ⟨t, ht, -⟩ := Option.bind_eq_some_iff.mp hop
    refine .skip_one rfl (ne_nil_of_head? ht) fun c₁ hs₁ hw₁ => ?_
    refine h.unary.bind hs₁ (by omega) fun operand c₂ hs₂ hw₂ => ?_
    exact .give hs₂ (by omega)
  case h_2 =>
    refine .rest ?_
    split
    case isTrue hcast =>
      have hne : c.rest ≠ [] := by
        intro hc
        rw [hc] at hcast
        cases hcast
      refine .skip_one rfl hne fun c₁ hs₁ hw₁ => ?_
      refine (takes_type n).bind hs₁ (by omega) fun ty c₂ hs₂ hw₂ => .expect hs₂ fun c₃ hs₃ hw₃ => ?_
      refine h.unary.bind hs₃ (by omega) fun operand c₄ hs₄ hw₄ => ?_
      exact .give hs₄ (by omega)
    case isFalse =>
      refine h.primary.bind rfl (by omega) fun first c₁ hs₁ hw₁ => ?_
      exact (h.suffixesAfter first).last hs₁ (by omega) hw₁

theorem suffixesAfter_succ (h : BodiesHalt n) (e : Doc) :
    Leaves 1 (n + 1) (Reader.suffixesAfter (n + 1) e) := by
  intro c
  rw [Reader.suffixesAfter]
  refine .peek ?_
  have hmore : ∀ e' {c₁ : Cursor}, c₁.stop = c.stop → c₁.weight < c.weight →
      Halts (10 * c.weight + 1 ≤ n + 1) c.stop (Reader.suffixesAfter n e') c₁ (Below (c.weight + 1)) :=
    fun e' _ hs₁ hw₁ => (h.suffixesAfter e').last hs₁ (by omega) (by omega)
  split
  case h_1 ht =>
    refine .skip_one rfl (ne_nil_of_head? ht) fun c₁ hs₁ hw₁ => .identifier hs₁ fun name c₂ hs₂ hw₂ => ?_
    refine .isAt ?_
    split
    · refine h.arguments.bind hs₂ (by omega) fun args c₃ hs₃ hw₃ => ?_
      exact hmore _ hs₃ (by omega)
    · exact hmore _ hs₂ (by omega)
  case h_2 ht =>
    refine .skip_one rfl (ne_nil_of_head? ht) fun c₁ hs₁ hw₁ => ?_
    refine h.expression.bind hs₁ (by omega) fun index c₂ hs₂ hw₂ => .expect hs₂ fun c₃ hs₃ hw₃ => ?_
    exact hmore _ hs₃ (by omega)
  case h_3 ht =>
    refine .skip_one rfl (ne_nil_of_head? ht) fun c₁ hs₁ hw₁ => ?_
    refine .takes hs₁ (fun c₂ hs₂ hw₂ => hmore _ hs₂ (by omega)) ?_
    exact .identifier hs₁ fun name c₂ hs₂ hw₂ => hmore _ hs₂ (by omega)
  case h_4 ht =>
    exact .skip_one rfl (ne_nil_of_head? ht) fun c₁ hs₁ hw₁ => hmore _ hs₁ hw₁
  case h_5 ht =>
    exact .skip_one rfl (ne_nil_of_head? ht) fun c₁ hs₁ hw₁ => hmore _ hs₁ hw₁
  case h_6 => exact .pure rfl (Nat.lt_succ_self _)

theorem primary_succ (h : BodiesHalt n) : Takes 2 (n + 1) (Reader.primary (n + 1)) := by
  intro c
  rw [Reader.primary]
  refine .peek ?_
  split
  case h_1 => exact .fail rfl _
  case h_2 t ht =>
    split
    · exact .skip_one rfl (ne_nil_of_head? ht) fun c₁ hs₁ hw₁ => .pure hs₁ hw₁
    · split
      · refine h.inParens.bind rfl (by omega) fun inner c₁ hs₁ hw₁ => ?_
        exact .pure hs₁ hw₁
      · refine .skip_one rfl (ne_nil_of_head? ht) fun c₁ hs₁ hw₁ => ?_
        refine (takes_type n).bind hs₁ (by omega) fun ty c₂ hs₂ hw₂ => ?_
        refine h.arguments.bind hs₂ (by omega) fun args c₃ hs₃ hw₃ => ?_
        exact .give hs₃ (by omega)
      · refine .identifier rfl fun name c₁ hs₁ hw₁ => .isAt ?_
        split
        · refine h.arguments.bind hs₁ (by omega) fun args c₂ hs₂ hw₂ => ?_
          exact .give hs₂ (by omega)
        · exact .peek (.pure hs₁ hw₁)
      · exact .fail rfl _

theorem inParens_succ (h : BodiesHalt n) : Takes 1 (n + 1) (Reader.inParens (n + 1)) := by
  intro c
  rw [Reader.inParens]
  refine .expect rfl fun c₁ hs₁ hw₁ => h.expression.bind hs₁ (by omega) fun e c₂ hs₂ hw₂ => ?_
  exact .expect hs₂ fun c₃ hs₃ hw₃ => .give hs₃ (by omega)

theorem arguments_succ (h : BodiesHalt n) : Takes 1 (n + 1) (Reader.arguments (n + 1)) := by
  intro c
  rw [Reader.arguments]
  refine .expect rfl fun c₁ hs₁ hw₁ => ?_
  refine .takes_ite hs₁ (fun c₂ hs₂ hw₂ => .give hs₂ (by omega)) ?_
  exact h.argumentsFrom.last hs₁ (by omega) hw₁.le

theorem argumentsFrom_succ (h : BodiesHalt n) : Takes 7 (n + 1) (Reader.argumentsFrom (n + 1)) := by
  intro c
  rw [Reader.argumentsFrom]
  refine h.expression.bind rfl (by omega) fun first c₁ hs₁ hw₁ => ?_
  refine .takes_ite hs₁ (fun c₂ hs₂ hw₂ => .give hs₂ (by omega)) ?_
  refine .expect hs₁ fun c₂ hs₂ hw₂ => h.argumentsFrom.bind hs₂ (by omega) fun more c₃ hs₃ hw₃ => ?_
  exact .give hs₃ (by omega)

/-! Statements -/

theorem block_succ (h : BodiesHalt n) : Takes 1 (n + 1) (Reader.block (n + 1)) := by
  intro c
  rw [Reader.block]
  refine .expect rfl fun c₁ hs₁ hw₁ => h.statements.bind hs₁ (by omega) fun body c₂ hs₂ hw₂ => ?_
  exact .give hs₂ (by omega)

theorem statements_succ (h : BodiesHalt n) : Takes 9 (n + 1) (Reader.statements (n + 1)) := by
  intro c
  rw [Reader.statements]
  refine .takes_ite rfl (fun c₁ hs₁ hw₁ => .pure hs₁ hw₁) ?_
  refine h.statement.bind rfl (by omega) fun first c₁ hs₁ hw₁ => ?_
  refine h.statements.bind hs₁ (by omega) fun more c₂ hs₂ hw₂ => ?_
  exact .give hs₂ (by omega)

theorem simpleStatement_succ (h : BodiesHalt n) :
    Takes 7 (n + 1) (Reader.simpleStatement (n + 1)) := by
  intro c
  rw [Reader.simpleStatement]
  have hend : ∀ kind parts {c₃ : Cursor}, c₃.stop = c.stop → c₃.weight < c.weight →
      Halts (10 * c.weight + 7 ≤ n + 1) c.stop
        (do expect ";"; pure (Doc.plain kind parts [])) c₃ (Below c.weight) :=
    fun kind parts c₃ hs₃ hw₃ => .expect hs₃ fun c₄ hs₄ hw₄ => .give hs₄ (by omega)
  have hmain : ∀ {c₁ : Cursor}, c₁.stop = c.stop → c₁.weight ≤ c.weight →
      Halts (10 * c.weight + 7 ≤ n + 1) c.stop (do
        if Lookahead.startsDeclaration (← rest) then
          let ty ← type n
          let name ← identifier
          let value ← if ← takesMark "=" then do
              let d ← Reader.expression n
              pure (some d)
            else pure none
          expect ";"
          pure (Doc.plain (.localVar name) [some ty, value] [])
        else
          let d ← Reader.expression n
          expect ";"
          pure (Doc.plain .exprStmt [some d] [])) c₁ (Below c.weight) := by
    intro c₁ hs₁ hw₁
    refine .rest ?_
    split
    · refine (takes_type n).bind hs₁ (by omega) fun ty c₂ hs₂ hw₂ => ?_
      refine .identifier hs₂ fun name c₃ hs₃ hw₃ => .takes_ite hs₃ (fun c₄ hs₄ hw₄ => ?_) ?_
      · refine h.expression.bind hs₄ (by omega) fun value c₅ hs₅ hw₅ => ?_
        exact hend _ _ hs₅ (by omega)
      · exact hend _ _ hs₃ (by omega)
    · exact h.expression.bind hs₁ (by omega) fun e c₂ hs₂ hw₂ => hend _ _ hs₂ (by omega)
  exact .takes rfl (fun c₁ hs₁ hw₁ => hmain hs₁ hw₁.le) (hmain rfl le_rfl)

theorem statement_succ (h : BodiesHalt n) : Takes 8 (n + 1) (Reader.statement (n + 1)) := by
  intro c
  rw [Reader.statement]
  have hsimple : Halts (10 * c.weight + 8 ≤ n + 1) c.stop (Reader.simpleStatement n) c
      (Below c.weight) := h.simpleStatement.last rfl (by omega) le_rfl
  have hend : ∀ kind parts list {c₁ : Cursor}, c₁.stop = c.stop → c₁.weight < c.weight →
      Halts (10 * c.weight + 8 ≤ n + 1) c.stop
        (do expect ";"; pure (Doc.plain kind parts list)) c₁ (Below c.weight) :=
    fun kind parts list c₁ hs₁ hw₁ => .expect hs₁ fun c₂ hs₂ hw₂ => .give hs₂ (by omega)
  refine .rest ?_
  split
  case h_1 m us hts =>
    have hne : c.rest ≠ [] := by rw [hts]; exact List.cons_ne_nil _ _
    split
    · exact h.block.last rfl (by omega) le_rfl
    · split
      · exact .skip_one rfl hne fun c₁ hs₁ hw₁ => .pure hs₁ hw₁
      · exact hsimple
  case h_2 w us hts =>
    have hne : c.rest ≠ [] := by rw [hts]; exact List.cons_ne_nil _ _
    split
    · -- if
      refine .skip_one rfl hne fun c₁ hs₁ hw₁ => ?_
      refine h.inParens.bind hs₁ (by omega) fun condition c₂ hs₂ hw₂ => ?_
      refine h.statement.bind hs₂ (by omega) fun chosen c₃ hs₃ hw₃ => ?_
      refine .takes_ite hs₃ (fun c₄ hs₄ hw₄ => ?_) (.give hs₃ (by omega))
      refine h.statement.bind hs₄ (by omega) fun otherwise c₅ hs₅ hw₅ => ?_
      exact .give hs₅ (by omega)
    split
    · -- while
      refine .skip_one rfl hne fun c₁ hs₁ hw₁ => ?_
      refine h.inParens.bind hs₁ (by omega) fun condition c₂ hs₂ hw₂ => ?_
      refine h.statement.bind hs₂ (by omega) fun body c₃ hs₃ hw₃ => ?_
      exact .give hs₃ (by omega)
    split
    · -- for
      refine .skip_one rfl hne fun c₁ hs₁ hw₁ => .expect hs₁ fun c₂ hs₂ hw₂ => ?_
      refine (takes_type n).bind hs₂ (by omega) fun ty c₃ hs₃ hw₃ => ?_
      refine .identifier hs₃ fun name c₄ hs₄ hw₄ => .expect hs₄ fun c₅ hs₅ hw₅ => ?_
      refine h.expression.bind hs₅ (by omega) fun range c₆ hs₆ hw₆ => .expect hs₆ fun c₇ hs₇ hw₇ => ?_
      refine h.statement.bind hs₇ (by omega) fun body c₈ hs₈ hw₈ => ?_
      exact .give hs₈ (by omega)
    split
    · -- return
      refine .skip_one rfl hne fun c₁ hs₁ hw₁ => .isAt ?_
      split
      · exact hend _ _ _ hs₁ hw₁
      · refine h.expression.bind hs₁ (by omega) fun value c₂ hs₂ hw₂ => ?_
        exact hend _ _ _ hs₂ (by omega)
    split
    · -- throw
      refine .skip_one rfl hne fun c₁ hs₁ hw₁ => ?_
      refine h.expression.bind hs₁ (by omega) fun value c₂ hs₂ hw₂ => ?_
      exact hend _ _ _ hs₂ (by omega)
    split
    · exact .skip_one rfl hne fun c₁ hs₁ hw₁ => hend _ _ _ hs₁ hw₁
    split
    · exact .skip_one rfl hne fun c₁ hs₁ hw₁ => hend _ _ _ hs₁ hw₁
    split
    · -- a call of another constructor
      refine .skip_one rfl hne fun c₁ hs₁ hw₁ => ?_
      refine h.arguments.bind hs₁ (by omega) fun args c₂ hs₂ hw₂ => ?_
      exact hend _ _ _ hs₂ (by omega)
    · exact hsimple
  case h_3 => exact hsimple

end BodiesHalt

theorem bodiesHalt (n : Nat) : BodiesHalt n := by
  induction n with
  | zero =>
    constructor
    case lambda? => intro c; rw [lambda?]; exact .exhausted (by omega)
    case operation => intro least; rw [operation]; exact .zero (by decide)
    case operatorsAfter => intro least left; rw [operatorsAfter]; exact .zero (by decide)
    case suffixesAfter => intro e; rw [suffixesAfter]; exact .zero (by decide)
    case expression => rw [expression]; exact .zero (by decide)
    case conditional => rw [conditional]; exact .zero (by decide)
    case unary => rw [unary]; exact .zero (by decide)
    case primary => rw [primary]; exact .zero (by decide)
    case inParens => rw [inParens]; exact .zero (by decide)
    case arguments => rw [arguments]; exact .zero (by decide)
    case argumentsFrom => rw [argumentsFrom]; exact .zero (by decide)
    case block => rw [block]; exact .zero (by decide)
    case statements => rw [statements]; exact .zero (by decide)
    case statement => rw [statement]; exact .zero (by decide)
    case simpleStatement => rw [simpleStatement]; exact .zero (by decide)
  | succ n ih =>
    exact {
      expression := ih.expression_succ
      lambda? := ih.lambda?_succ
      conditional := ih.conditional_succ
      operation := ih.operation_succ
      operatorsAfter := ih.operatorsAfter_succ
      unary := ih.unary_succ
      suffixesAfter := ih.suffixesAfter_succ
      primary := ih.primary_succ
      inParens := ih.inParens_succ
      arguments := ih.arguments_succ
      argumentsFrom := ih.argumentsFrom_succ
      block := ih.block_succ
      statements := ih.statements_succ
      statement := ih.statement_succ
      simpleStatement := ih.simpleStatement_succ }

end TreeTidy.Reader
