import TreeTidy.Proofs.Source.Runs
/-!
What a reader of expressions or statements does with the readers that it calls: which of them run over
which tokens, and what the result is made of. The same is said of the run that was made and of the runs
that can be relied on, so a step is taken for any notion `R` of a run.
-/
namespace TreeTidy.Reader

open Doc (plain)
open Lookahead (startsCast startsDeclaration lambdaForm?)
open Token (mark word)

section

variable (R : {α : Type} → Reader α → List Token → α → List Token → Prop) (n : Nat)

inductive ExpressionStep (ts : List Token) : Doc → List Token → Prop
  | lambda {d : Doc} {ts' : List Token} : R (lambda? n) ts (some d) ts' → ExpressionStep ts d ts'
  | plain {ts₁ ts' : List Token} {d : Doc} : R (lambda? n) ts none ts₁ → R (conditional n) ts₁ d ts' →
      (∀ op : AssignOp, ts'.head? ≠ some (mark op.token)) → ExpressionStep ts d ts'
  | assign {ts₁ ts₂ ts' : List Token} {op : AssignOp} {l r : Doc} : R (lambda? n) ts none ts₁ →
      R (conditional n) ts₁ l (mark op.token :: ts₂) → R (expression n) ts₂ r ts' →
      ExpressionStep ts (plain (.assign op) [some l, some r] []) ts'

/-- The body of a lambda, and the lambda with it. -/
inductive BodyStep (parenthesized : Bool) (ps : List Doc) (ts : List Token) : Option Doc → List Token → Prop
  | block {b : Doc} {ts' : List Token} : ts.head? = some (mark "\x7b") → R (block n) ts b ts' →
      BodyStep parenthesized ps ts (some (plain (.lambda parenthesized) [some b] ps)) ts'
  | expression {b : Doc} {ts' : List Token} : ts.head? ≠ some (mark "\x7b") → R (expression n) ts b ts' →
      BodyStep parenthesized ps ts (some (plain (.lambda parenthesized) [some b] ps)) ts'

inductive LambdaStep : List Token → Option Doc → List Token → Prop
  | none {ts : List Token} : lambdaForm? ts = none → LambdaStep ts none ts
  | single {name : String} {o : Option Doc} {ts ts' : List Token} : isKeyword name = false →
      BodyStep R n false [param name none] ts o ts' → LambdaStep (word name :: mark "->" :: ts) o ts'
  | parenthesized {ps : List Doc} {o : Option Doc} {ts ts₁ ts' : List Token} :
      lambdaForm? (mark "(" :: ts) = some .parenthesized →
      R (lambdaParams n) ts ps (mark "->" :: ts₁) → BodyStep R n true ps ts₁ o ts' →
      LambdaStep (mark "(" :: ts) o ts'

inductive ConditionalStep (ts : List Token) : Doc → List Token → Prop
  | plain {d : Doc} {ts' : List Token} : R (operation n 1) ts d ts' →
      ts'.head? ≠ some (mark "?") → ConditionalStep ts d ts'
  | lambda {c x y : Doc} {ts₁ ts₂ ts' : List Token} : R (operation n 1) ts c (mark "?" :: ts₁) →
      R (expression n) ts₁ x (mark ":" :: ts₂) → R (lambda? n) ts₂ (some y) ts' →
      ConditionalStep ts (plain .conditional [some c, some x, some y] []) ts'
  | conditional {c x y : Doc} {ts₁ ts₂ ts₃ ts' : List Token} :
      R (operation n 1) ts c (mark "?" :: ts₁) → R (expression n) ts₁ x (mark ":" :: ts₂) →
      R (lambda? n) ts₂ none ts₃ → R (conditional n) ts₃ y ts' →
      ConditionalStep ts (plain .conditional [some c, some x, some y] []) ts'

inductive OperatorStep (least : Nat) (left : Doc) : List Token → Doc → List Token → Prop
  | instanceOf {ty d : Doc} {ts ts₁ ts' : List Token} : least ≤ BinaryOp.lt.precedence →
      R (type n) ts ty ts₁ →
      R (operatorsAfter n least (plain .instanceOf [some left, some ty] [])) ts₁ d ts' →
      OperatorStep least left (word "instanceof" :: ts) d ts'
  | binary {op : BinaryOp} {r d : Doc} {ts ts₁ ts' : List Token} : least ≤ op.precedence →
      R (operation n (op.precedence + 1)) ts r ts₁ →
      R (operatorsAfter n least (plain (.binary op) [some left, some r] [])) ts₁ d ts' →
      OperatorStep least left (mark op.token :: ts) d ts'
  | stop {ts : List Token} :
      (least ≤ BinaryOp.lt.precedence → ts.head? ≠ some (word "instanceof")) →
      (∀ op : BinaryOp, least ≤ op.precedence → ts.head? ≠ some (mark op.token)) →
      OperatorStep least left ts left ts

inductive UnaryStep : List Token → Doc → List Token → Prop
  | leading {op : UnaryOp} {x : Doc} {ts ts' : List Token} : op.isPostfix = false →
      R (unary n) ts x ts' → UnaryStep (mark op.token :: ts) (plain (.unary op) [some x] []) ts'
  | cast {ty x : Doc} {ts ts₁ ts' : List Token} : startsCast (mark "(" :: ts) = true →
      R (type n) ts ty (mark ")" :: ts₁) → R (unary n) ts₁ x ts' →
      UnaryStep (mark "(" :: ts) (plain .castExpr [some ty, some x] []) ts'
  | operand {first d : Doc} {ts ts₁ ts' : List Token} : ts.head?.bind leadingOp? = none →
      startsCast ts = false → R (primary n) ts first ts₁ → R (suffixesAfter n first) ts₁ d ts' →
      UnaryStep ts d ts'

inductive SuffixStep (d : Doc) : List Token → Doc → List Token → Prop
  | callOn {name : String} {args : List Doc} {d' : Doc} {ts ts₁ ts' : List Token} :
      isKeyword name = false → R (arguments n) (mark "(" :: ts) args ts₁ →
      R (suffixesAfter n (plain (.methodCall name) [some d] args)) ts₁ d' ts' →
      SuffixStep d (mark "." :: word name :: mark "(" :: ts) d' ts'
  | field {name : String} {d' : Doc} {ts ts' : List Token} :
      isKeyword name = false → ts.head? ≠ some (mark "(") →
      R (suffixesAfter n (plain (.fieldAccess name) [some d] [])) ts d' ts' →
      SuffixStep d (mark "." :: word name :: ts) d' ts'
  | index {i d' : Doc} {ts ts₁ ts' : List Token} : R (expression n) ts i (mark "]" :: ts₁) →
      R (suffixesAfter n (plain .arrayAccess [some d, some i] [])) ts₁ d' ts' →
      SuffixStep d (mark "[" :: ts) d' ts'
  | methodRef {name : String} {d' : Doc} {ts ts' : List Token} :
      isKeyword name = false ∨ name = "new" →
      R (suffixesAfter n (plain (.methodRef name) [some d] [])) ts d' ts' →
      SuffixStep d (mark "::" :: word name :: ts) d' ts'
  | trailing {op : UnaryOp} {d' : Doc} {ts ts' : List Token} : op.isPostfix = true →
      R (suffixesAfter n (plain (.unary op) [some d] [])) ts d' ts' →
      SuffixStep d (mark op.token :: ts) d' ts'
  | stop {ts : List Token} : (∀ m ∈ [".", "[", "::", "++", "--"], ts.head? ≠ some (mark m)) →
      SuffixStep d ts d ts

inductive PrimaryStep : List Token → Doc → List Token → Prop
  | literal {t : Token} {kind : NodeKind} {ts : List Token} : literal? t = some kind →
      PrimaryStep (t :: ts) (plain kind [] []) ts
  | paren {e : Doc} {ts ts' : List Token} : R (inParens n) (mark "(" :: ts) e ts' →
      PrimaryStep (mark "(" :: ts) (plain .paren [some e] []) ts'
  | newObject {ty : Doc} {args : List Doc} {ts ts₁ ts' : List Token} : R (type n) ts ty ts₁ →
      R (arguments n) ts₁ args ts' →
      PrimaryStep (word "new" :: ts) (plain .newObject [some ty] args) ts'
  | call {name : String} {args : List Doc} {ts ts' : List Token} : isKeyword name = false →
      R (arguments n) (mark "(" :: ts) args ts' →
      PrimaryStep (word name :: mark "(" :: ts) (plain (.methodCall name) [] args) ts'
  | name {name : String} {ts : List Token} : isKeyword name = false →
      ts.head? ≠ some (mark "(") → PrimaryStep (word name :: ts) (plain (nameKind name ts.head?) [] []) ts

inductive ArgumentsStep : List Token → List Doc → List Token → Prop
  | none {ts : List Token} : ArgumentsStep (mark "(" :: mark ")" :: ts) [] ts
  | some {args : List Doc} {ts ts' : List Token} : ts.head? ≠ some (mark ")") →
      R (argumentsFrom n) ts args ts' → ArgumentsStep (mark "(" :: ts) args ts'

inductive ArgumentsFromStep (ts : List Token) : List Doc → List Token → Prop
  | last {d : Doc} {ts' : List Token} : R (expression n) ts d (mark ")" :: ts') →
      ArgumentsFromStep ts [d] ts'
  | more {d : Doc} {ds : List Doc} {ts₁ ts' : List Token} : R (expression n) ts d (mark "," :: ts₁) →
      R (argumentsFrom n) ts₁ ds ts' → ArgumentsFromStep ts (d :: ds) ts'

inductive StatementsStep : List Token → List Doc → List Token → Prop
  | none {ts : List Token} : StatementsStep (mark "\x7d" :: ts) [] ts
  | more {d : Doc} {ds : List Doc} {ts ts₁ ts' : List Token} : ts.head? ≠ some (mark "\x7d") →
      R (statement n) ts d ts₁ → R (statements n) ts₁ ds ts' → StatementsStep ts (d :: ds) ts'

/-- The statements that begin with a mark or a word of their own. -/
inductive StatementStep : List Token → Doc → List Token → Prop
  | block {d : Doc} {ts ts' : List Token} : R (block n) (mark "\x7b" :: ts) d ts' →
      StatementStep (mark "\x7b" :: ts) d ts'
  | empty {ts : List Token} : StatementStep (mark ";" :: ts) (plain .emptyStmt [] []) ts
  | ifStmt {c s : Doc} {ts ts₁ ts' : List Token} : R (inParens n) ts c ts₁ →
      R (statement n) ts₁ s ts' → ts'.head? ≠ some (word "else") →
      StatementStep (word "if" :: ts) (plain .ifStmt [some c, some s, none] []) ts'
  | ifElse {c s o : Doc} {ts ts₁ ts₂ ts' : List Token} : R (inParens n) ts c ts₁ →
      R (statement n) ts₁ s (word "else" :: ts₂) → R (statement n) ts₂ o ts' →
      StatementStep (word "if" :: ts) (plain .ifStmt [some c, some s, some o] []) ts'
  | whileLoop {c s : Doc} {ts ts₁ ts' : List Token} : R (inParens n) ts c ts₁ →
      R (statement n) ts₁ s ts' →
      StatementStep (word "while" :: ts) (plain .whileLoop [some c, some s] []) ts'
  | forEach {name : String} {ty e s : Doc} {ts ts₁ ts₂ ts' : List Token} :
      R (type n) ts ty (word name :: mark ":" :: ts₁) → isKeyword name = false →
      R (expression n) ts₁ e (mark ")" :: ts₂) → R (statement n) ts₂ s ts' →
      StatementStep (word "for" :: mark "(" :: ts)
        (plain (.forEach name) [some ty, some e, some s] []) ts'
  | returnNone {ts : List Token} :
      StatementStep (word "return" :: mark ";" :: ts) (plain .returnStmt [none] []) ts
  | returnValue {e : Doc} {ts ts' : List Token} : ts.head? ≠ some (mark ";") →
      R (expression n) ts e (mark ";" :: ts') →
      StatementStep (word "return" :: ts) (plain .returnStmt [some e] []) ts'
  | throwStmt {e : Doc} {ts ts' : List Token} : R (expression n) ts e (mark ";" :: ts') →
      StatementStep (word "throw" :: ts) (plain .throwStmt [some e] []) ts'
  | breakStmt {ts : List Token} :
      StatementStep (word "break" :: mark ";" :: ts) (plain .breakStmt [] []) ts
  | continueStmt {ts : List Token} :
      StatementStep (word "continue" :: mark ";" :: ts) (plain .continueStmt [] []) ts
  | constructorCall {isSuper : Bool} {args : List Doc} {ts ts' : List Token} :
      R (arguments n) (mark "(" :: ts) args (mark ";" :: ts') →
      StatementStep (word (if isSuper then "super" else "this") :: mark "(" :: ts)
        (plain (.constructorCall isSuper) [] args) ts'

/-- The other statements, behind the word that may stand before a declaration. -/
inductive SimpleStep (ts : List Token) : Doc → List Token → Prop
  | declared {name : String} {ty : Doc} {ts' : List Token} : startsDeclaration ts = true →
      R (type n) ts ty (word name :: mark ";" :: ts') → isKeyword name = false →
      SimpleStep ts (plain (.localVar name) [some ty, none] []) ts'
  | initialized {name : String} {ty e : Doc} {ts₁ ts' : List Token} : startsDeclaration ts = true →
      R (type n) ts ty (word name :: mark "=" :: ts₁) → isKeyword name = false →
      R (expression n) ts₁ e (mark ";" :: ts') →
      SimpleStep ts (plain (.localVar name) [some ty, some e] []) ts'
  | exprStmt {e : Doc} {ts' : List Token} : startsDeclaration ts = false →
      R (expression n) ts e (mark ";" :: ts') → SimpleStep ts (plain .exprStmt [some e] []) ts'

inductive LambdaParamsStep : List Token → List Doc → List Token → Prop
  | none {ts : List Token} : LambdaParamsStep (mark ")" :: ts) [] ts
  | typed {name : String} {ty : Doc} {ds : List Doc} {ts ts₁ ts₂ ts' : List Token} :
      ts.head? ≠ some (mark ")") → Lookahead.startsTyped ts = true →
      R (type n) ts ty (word name :: ts₁) → isKeyword name = false →
      (ts₁ = mark "," :: ts₂ ∨ ts₁ = ts₂ ∧ ts₁.head? ≠ some (mark ",")) →
      R (lambdaParams n) ts₂ ds ts' → LambdaParamsStep ts (param name (some ty) :: ds) ts'
  | bare {name : String} {ds : List Doc} {ts₁ ts₂ ts' : List Token} :
      Lookahead.startsTyped (word name :: ts₁) = false → isKeyword name = false →
      (ts₁ = mark "," :: ts₂ ∨ ts₁ = ts₂ ∧ ts₁.head? ≠ some (mark ",")) →
      R (lambdaParams n) ts₂ ds ts' →
      LambdaParamsStep (word name :: ts₁) (param name none :: ds) ts'

inductive ParamsFromStep (ts : List Token) : List Doc → List Token → Prop
  | last {name : String} {ty : Doc} {ts' : List Token} : R (type n) ts ty (word name :: mark ")" :: ts') →
      isKeyword name = false → ParamsFromStep ts [param name (some ty)] ts'
  | more {name : String} {ty : Doc} {ds : List Doc} {ts₁ ts' : List Token} :
      R (type n) ts ty (word name :: mark "," :: ts₁) → isKeyword name = false →
      R (paramsFrom n) ts₁ ds ts' → ParamsFromStep ts (param name (some ty) :: ds) ts'

end

theorem assignOp?_token (op : AssignOp) : assignOp? op.token = some op := by
  cases op <;> decide

theorem token_of_assignOp? {m : String} {op : AssignOp} (h : assignOp? m = some op) : op.token = m := by
  simpa using List.find?_some h

theorem binaryOp?_token (op : BinaryOp) : binaryOp? op.token = some op := by
  cases op <;> decide

theorem token_of_binaryOp? {m : String} {op : BinaryOp} (h : binaryOp? m = some op) : op.token = m := by
  simpa using List.find?_some h

theorem leadingOp?_token {op : UnaryOp} (h : op.isPostfix = false) :
    leadingOp? (mark op.token) = some op := by
  cases op <;> first | rfl | cases h

theorem mark_of_leadingOp? {t : Token} {op : UnaryOp} (h : leadingOp? t = some op) :
    t = mark op.token ∧ op.isPostfix = false := by
  unfold leadingOp? at h
  split at h <;> cases h <;> exact ⟨rfl, rfl⟩

/-- A name is no literal and does not start an object. -/
theorem literal?_name {name : String} (h : isKeyword name = false) :
    literal? (word name) = none ∧ name ≠ "new" := by
  constructor
  · unfold literal?
    split
    all_goals first | rfl | (rename_i heq; cases heq <;> exact absurd h (by decide))
  · rintro rfl
    exact absurd h (by decide)

namespace Ran

variable {n : Nat} {ts ts' : List Token} {d : Doc}

theorem body {form : Lookahead.LambdaForm} {ps : List Doc} {o : Option Doc}
    (h : Ran (do
      let body ← if ← Reader.isAt "\x7b" then Reader.block n else Reader.expression n
      Pure.pure (some (plain (.lambda (form == .parenthesized)) [some body] ps))) ts o ts') :
    BodyStep Ran n (form == .parenthesized) ps ts o ts' := by
  rcases h.isAt_ite with ⟨hbrace, h₁⟩ | ⟨hbrace, h₁⟩
  · obtain ⟨b, hb, rfl⟩ := h₁.bind_pure
    exact .block hbrace hb
  · obtain ⟨b, hb, rfl⟩ := h₁.bind_pure
    exact .expression hbrace hb

theorem expression (h : Ran (expression (n + 1)) ts d ts') : ExpressionStep Ran n ts d ts' := by
  rw [Reader.expression] at h
  obtain ⟨o, ts₁, ho, h₁⟩ := h.bind
  cases o with
  | some x =>
    obtain ⟨rfl, rfl⟩ := h₁.pure
    exact .lambda ho
  | none =>
    obtain ⟨l, ts₂, hl, h₂⟩ := h₁.bind
    have h₃ := h₂.peek_bind
    split at h₃
    case h_1 m heq =>
      split at h₃
      case h_1 op hop =>
        obtain ⟨us, rfl⟩ := List.head?_eq_some_iff.mp heq
        obtain ⟨r, hr, rfl⟩ := h₃.skip_bind.bind_pure
        rw [← token_of_assignOp? hop] at hl
        exact .assign ho hl hr
      case h_2 hop =>
        obtain ⟨rfl, rfl⟩ := h₃.pure
        refine .plain ho hl fun op hm => ?_
        cases heq.symm.trans hm
        cases (assignOp?_token op).symm.trans hop
    case h_2 hne =>
      obtain ⟨rfl, rfl⟩ := h₃.pure
      exact .plain ho hl fun _ => hne _

theorem lambda? {o : Option Doc} (h : Ran (lambda? (n + 1)) ts o ts') : LambdaStep Ran n ts o ts' := by
  rw [Reader.lambda?] at h
  have h₁ := h.rest_bind
  cases hform : lambdaForm? ts with
  | none =>
    rw [hform] at h₁
    obtain ⟨rfl, rfl⟩ := h₁.pure
    exact .none hform
  | some form =>
    rw [hform] at h₁
    cases form with
    | single =>
      obtain ⟨name, ts₁, rfl, hk, h₂⟩ := h₁.identifier_bind
      obtain ⟨ts₂, rfl, h₃⟩ := h₂.pure_bind.expect_bind
      exact .single hk h₃.body
    | parenthesized =>
      obtain ⟨us, rfl⟩ : ∃ us, ts = mark "(" :: us := by
        unfold lambdaForm? at hform
        split at hform
        case h_1 => cases hform
        case h_2 => exact ⟨_, rfl⟩
        case h_3 => cases hform
      obtain ⟨ps, ts₁, hps, h₂⟩ := h₁.skip_bind.bind
      obtain ⟨ts₂, rfl, h₃⟩ := h₂.expect_bind
      exact .parenthesized hform hps h₃.body

theorem conditional (h : Ran (conditional (n + 1)) ts d ts') : ConditionalStep Ran n ts d ts' := by
  rw [Reader.conditional] at h
  obtain ⟨c, ts₁, hc, h₁⟩ := h.bind
  rcases h₁.takes_ite with ⟨ts₂, rfl, h₂⟩ | ⟨hne, h₂⟩
  · obtain ⟨x, ts₃, hx, h₃⟩ := h₂.bind
    obtain ⟨ts₄, rfl, h₄⟩ := h₃.expect_bind
    obtain ⟨o, ts₅, ho, h₅⟩ := h₄.bind
    cases o with
    | some y =>
      obtain ⟨rfl, rfl⟩ := h₅.pure_bind.pure
      exact .lambda hc hx ho
    | none =>
      obtain ⟨y, hy, rfl⟩ := h₅.bind_pure
      exact .conditional hc hx ho hy
  · obtain ⟨rfl, rfl⟩ := h₂.pure
    exact .plain hc hne

theorem operation {least : Nat} (h : Ran (operation (n + 1) least) ts d ts') :
    ∃ first ts₁, Ran (Reader.unary n) ts first ts₁ ∧ Ran (Reader.operatorsAfter n least first) ts₁ d ts' := by
  rw [Reader.operation] at h
  exact h.bind

theorem operatorsAfter {least : Nat} {left : Doc} (h : Ran (operatorsAfter (n + 1) least left) ts d ts') :
    OperatorStep Ran n least left ts d ts' := by
  rw [Reader.operatorsAfter] at h
  have h₁ := h.peek_bind
  split at h₁
  case h_1 w heq =>
    obtain ⟨us, rfl⟩ := List.head?_eq_some_iff.mp heq
    split at h₁
    case isTrue hw =>
      obtain ⟨rfl, hl⟩ := hw
      obtain ⟨ty, ts₁, hty, h₂⟩ := h₁.skip_bind.bind
      exact .instanceOf hl hty h₂
    case isFalse hw =>
      obtain ⟨rfl, rfl⟩ := h₁.pure
      refine .stop (fun hl hi => hw ⟨?_, hl⟩) fun op _ ho => ?_
      · cases hi; rfl
      · cases ho
  case h_2 m heq =>
    obtain ⟨us, rfl⟩ := List.head?_eq_some_iff.mp heq
    split at h₁
    case h_1 op hop =>
      split at h₁
      case isTrue hl =>
        obtain ⟨r, ts₁, hr, h₂⟩ := h₁.skip_bind.bind
        obtain rfl := token_of_binaryOp? hop
        exact .binary hl hr h₂
      case isFalse hl =>
        obtain ⟨rfl, rfl⟩ := h₁.pure
        refine .stop nofun fun op' hl' hm => hl ?_
        cases hm
        cases hop.symm.trans (binaryOp?_token op')
        exact hl'
    case h_2 hop =>
      obtain ⟨rfl, rfl⟩ := h₁.pure
      refine .stop nofun fun op _ hm => ?_
      cases hm
      cases hop.symm.trans (binaryOp?_token op)
  case h_3 hw hm =>
    obtain ⟨rfl, rfl⟩ := h₁.pure
    exact .stop (fun _ => hw _) fun _ _ => hm _

theorem unary (h : Ran (unary (n + 1)) ts d ts') : UnaryStep Ran n ts d ts' := by
  rw [Reader.unary] at h
  have h₁ := h.peek_bind
  split at h₁
  case h_1 op hop =>
    obtain ⟨t, ht, hop⟩ := Option.bind_eq_some_iff.mp hop
    obtain ⟨us, rfl⟩ := List.head?_eq_some_iff.mp ht
    obtain ⟨rfl, hpost⟩ := mark_of_leadingOp? hop
    obtain ⟨x, hx, rfl⟩ := h₁.skip_bind.bind_pure
    exact .leading hpost hx
  case h_2 hop =>
    have h₂ := h₁.rest_bind
    split at h₂
    case isTrue hcast =>
      obtain ⟨us, rfl⟩ : ∃ us, ts = mark "(" :: us := by
        unfold startsCast at hcast
        split at hcast
        case h_1 => exact ⟨_, rfl⟩
        case h_2 => cases hcast
      obtain ⟨ty, ts₁, hty, h₃⟩ := h₂.skip_bind.bind
      obtain ⟨ts₂, rfl, h₄⟩ := h₃.expect_bind
      obtain ⟨x, hx, rfl⟩ := h₄.bind_pure
      exact .cast hcast hty hx
    case isFalse hcast =>
      obtain ⟨first, ts₁, hf, h₃⟩ := h₂.bind
      exact .operand hop (Bool.eq_false_iff.mpr hcast) hf h₃

theorem suffixesAfter {d' : Doc} (h : Ran (suffixesAfter (n + 1) d) ts d' ts') :
    SuffixStep Ran n d ts d' ts' := by
  rw [Reader.suffixesAfter] at h
  have h₁ := h.peek_bind
  split at h₁
  case h_1 heq =>
    obtain ⟨us, rfl⟩ := List.head?_eq_some_iff.mp heq
    obtain ⟨name, ts₁, rfl, hk, h₂⟩ := h₁.skip_bind.identifier_bind
    rcases h₂.isAt_ite with ⟨hpar, h₃⟩ | ⟨hpar, h₃⟩
    · obtain ⟨args, ts₂, hargs, h₄⟩ := h₃.bind
      obtain ⟨vs, rfl⟩ := List.head?_eq_some_iff.mp hpar
      exact .callOn hk hargs h₄
    · exact .field hk hpar h₃
  case h_2 heq =>
    obtain ⟨us, rfl⟩ := List.head?_eq_some_iff.mp heq
    obtain ⟨i, ts₁, hi, h₂⟩ := h₁.skip_bind.bind
    obtain ⟨ts₂, rfl, h₃⟩ := h₂.expect_bind
    exact .index hi h₃
  case h_3 heq =>
    obtain ⟨us, rfl⟩ := List.head?_eq_some_iff.mp heq
    rcases h₁.skip_bind.takes_ite with ⟨ts₁, rfl, h₂⟩ | ⟨-, h₂⟩
    · exact .methodRef (.inr rfl) h₂.pure_bind
    · obtain ⟨name, ts₁, rfl, hk, h₃⟩ := h₂.identifier_bind
      exact .methodRef (.inl hk) h₃
  case h_4 heq =>
    obtain ⟨us, rfl⟩ := List.head?_eq_some_iff.mp heq
    exact @SuffixStep.trailing _ n d .postInc _ _ _ rfl h₁.skip_bind
  case h_5 heq =>
    obtain ⟨us, rfl⟩ := List.head?_eq_some_iff.mp heq
    exact @SuffixStep.trailing _ n d .postDec _ _ _ rfl h₁.skip_bind
  case h_6 hpoint hbracket hcolons hinc hdec =>
    obtain ⟨rfl, rfl⟩ := h₁.pure
    refine .stop fun m hm hs => ?_
    simp only [List.mem_cons, List.not_mem_nil, or_false] at hm
    rcases hm with rfl | rfl | rfl | rfl | rfl
    · exact hpoint hs
    · exact hbracket hs
    · exact hcolons hs
    · exact hinc hs
    · exact hdec hs

theorem primary (h : Ran (primary (n + 1)) ts d ts') : PrimaryStep Ran n ts d ts' := by
  rw [Reader.primary] at h
  have h₁ := h.peek_bind
  split at h₁
  case h_1 => exact h₁.fail.elim
  case h_2 t heq =>
    obtain ⟨us, rfl⟩ := List.head?_eq_some_iff.mp heq
    split at h₁
    case h_1 kind hkind =>
      obtain ⟨rfl, rfl⟩ := h₁.skip_bind.pure
      exact .literal hkind
    case h_2 hkind =>
      split at h₁
      case h_1 =>
        obtain ⟨e, he, rfl⟩ := h₁.bind_pure
        exact .paren he
      case h_2 =>
        obtain ⟨ty, ts₁, hty, h₂⟩ := h₁.skip_bind.bind
        obtain ⟨args, hargs, rfl⟩ := h₂.bind_pure
        exact .newObject hty hargs
      case h_3 =>
        obtain ⟨name, ts₁, hts, hk, h₂⟩ := h₁.identifier_bind
        cases hts
        rcases h₂.isAt_ite with ⟨hpar, h₃⟩ | ⟨hpar, h₃⟩
        · obtain ⟨args, hargs, rfl⟩ := h₃.bind_pure
          obtain ⟨vs, rfl⟩ := List.head?_eq_some_iff.mp hpar
          exact .call hk hargs
        · obtain ⟨rfl, rfl⟩ := h₃.peek_bind.pure
          exact .name hk hpar
      case h_4 => exact h₁.fail.elim

theorem inParens (h : Ran (inParens (n + 1)) ts d ts') :
    ∃ ts₁, ts = mark "(" :: ts₁ ∧ Ran (Reader.expression n) ts₁ d (mark ")" :: ts') := by
  rw [Reader.inParens] at h
  obtain ⟨ts₁, rfl, h₁⟩ := h.expect_bind
  obtain ⟨e, ts₂, he, h₂⟩ := h₁.bind
  obtain ⟨rfl, rfl⟩ := h₂.expect_pure
  exact ⟨ts₁, rfl, he⟩

theorem arguments {ds : List Doc} (h : Ran (arguments (n + 1)) ts ds ts') :
    ArgumentsStep Ran n ts ds ts' := by
  rw [Reader.arguments] at h
  obtain ⟨ts₁, rfl, h₁⟩ := h.expect_bind
  rcases h₁.takes_ite with ⟨ts₂, rfl, h₂⟩ | ⟨hne, h₂⟩
  · obtain ⟨rfl, rfl⟩ := h₂.pure
    exact .none
  · exact .some hne h₂

theorem argumentsFrom {ds : List Doc} (h : Ran (argumentsFrom (n + 1)) ts ds ts') :
    ArgumentsFromStep Ran n ts ds ts' := by
  rw [Reader.argumentsFrom] at h
  obtain ⟨d, ts₁, hd, h₁⟩ := h.bind
  rcases h₁.takes_ite with ⟨ts₂, rfl, h₂⟩ | ⟨-, h₂⟩
  · obtain ⟨rfl, rfl⟩ := h₂.pure
    exact .last hd
  · obtain ⟨ts₂, rfl, h₃⟩ := h₂.expect_bind
    obtain ⟨ds, hds, rfl⟩ := h₃.bind_pure
    exact .more hd hds

theorem block (h : Ran (block (n + 1)) ts d ts') :
    ∃ ts₁ ss, ts = mark "\x7b" :: ts₁ ∧ Ran (Reader.statements n) ts₁ ss ts'
      ∧ d = plain .block [] ss := by
  rw [Reader.block] at h
  obtain ⟨ts₁, rfl, h₁⟩ := h.expect_bind
  obtain ⟨ss, hss, rfl⟩ := h₁.bind_pure
  exact ⟨ts₁, ss, rfl, hss, rfl⟩

theorem statements {ds : List Doc} (h : Ran (statements (n + 1)) ts ds ts') :
    StatementsStep Ran n ts ds ts' := by
  rw [Reader.statements] at h
  rcases h.takes_ite with ⟨ts₁, rfl, h₁⟩ | ⟨hne, h₁⟩
  · obtain ⟨rfl, rfl⟩ := h₁.pure
    exact .none
  · obtain ⟨d, ts₁, hd, h₂⟩ := h₁.bind
    obtain ⟨ds, hds, rfl⟩ := h₂.bind_pure
    exact .more hne hd hds

theorem statement (h : Ran (statement (n + 1)) ts d ts') :
    StatementStep Ran n ts d ts' ∨ Ran (Reader.simpleStatement n) ts d ts' := by
  rw [Reader.statement] at h
  have h₁ := h.rest_bind
  split at h₁
  case h_1 m us =>
    split at h₁
    case isTrue hm =>
      subst hm
      exact .inl (.block h₁)
    case isFalse =>
      split at h₁
      case isTrue hm =>
        subst hm
        obtain ⟨rfl, rfl⟩ := h₁.skip_bind.pure
        exact .inl .empty
      case isFalse => exact .inr h₁
  case h_2 w us =>
    -- one test after the other, as the words are told apart
    by_cases hw : w = "if"
    · subst hw
      rw [if_pos rfl] at h₁
      obtain ⟨c, ts₁, hc, h₂⟩ := h₁.skip_bind.bind
      obtain ⟨s, ts₂, hs, h₃⟩ := h₂.bind
      rcases h₃.takes_ite with ⟨ts₃, rfl, h₄⟩ | ⟨hne, h₄⟩
      · obtain ⟨o, ho, rfl⟩ := h₄.bind_pure
        exact .inl (.ifElse hc hs ho)
      · obtain ⟨rfl, rfl⟩ := h₄.pure
        exact .inl (.ifStmt hc hs hne)
    rw [if_neg hw] at h₁
    by_cases hw : w = "while"
    · subst hw
      rw [if_pos rfl] at h₁
      obtain ⟨c, ts₁, hc, h₂⟩ := h₁.skip_bind.bind
      obtain ⟨s, hs, rfl⟩ := h₂.bind_pure
      exact .inl (.whileLoop hc hs)
    rw [if_neg hw] at h₁
    by_cases hw : w = "for"
    · subst hw
      rw [if_pos rfl] at h₁
      obtain ⟨ts₁, rfl, h₂⟩ := h₁.skip_bind.expect_bind
      obtain ⟨ty, ts₂, hty, h₃⟩ := h₂.bind
      obtain ⟨name, ts₃, rfl, hk, h₄⟩ := h₃.identifier_bind
      obtain ⟨ts₄, rfl, h₅⟩ := h₄.expect_bind
      obtain ⟨e, ts₅, he, h₆⟩ := h₅.bind
      obtain ⟨ts₆, rfl, h₇⟩ := h₆.expect_bind
      obtain ⟨s, hs, rfl⟩ := h₇.bind_pure
      exact .inl (.forEach hty hk he hs)
    rw [if_neg hw] at h₁
    by_cases hw : w = "return"
    · subst hw
      rw [if_pos rfl] at h₁
      rcases h₁.skip_bind.isAt_ite with ⟨-, h₂⟩ | ⟨hne, h₂⟩
      · obtain ⟨rfl, rfl⟩ := h₂.pure_bind.expect_pure
        exact .inl .returnNone
      · obtain ⟨e, ts₁, he, h₃⟩ := h₂.bind
        obtain ⟨rfl, rfl⟩ := h₃.pure_bind.expect_pure
        exact .inl (.returnValue hne he)
    rw [if_neg hw] at h₁
    by_cases hw : w = "throw"
    · subst hw
      rw [if_pos rfl] at h₁
      obtain ⟨e, ts₁, he, h₂⟩ := h₁.skip_bind.bind
      obtain ⟨rfl, rfl⟩ := h₂.expect_pure
      exact .inl (.throwStmt he)
    rw [if_neg hw] at h₁
    by_cases hw : w = "break"
    · subst hw
      rw [if_pos rfl] at h₁
      obtain ⟨rfl, rfl⟩ := h₁.skip_bind.expect_pure
      exact .inl .breakStmt
    rw [if_neg hw] at h₁
    by_cases hw : w = "continue"
    · subst hw
      rw [if_pos rfl] at h₁
      obtain ⟨rfl, rfl⟩ := h₁.skip_bind.expect_pure
      exact .inl .continueStmt
    rw [if_neg hw] at h₁
    split at h₁
    case isTrue hcall =>
      obtain ⟨hw, hpar⟩ := hcall
      obtain ⟨vs, rfl⟩ := List.head?_eq_some_iff.mp hpar
      obtain ⟨args, ts₁, hargs, h₂⟩ := h₁.skip_bind.bind
      obtain ⟨rfl, rfl⟩ := h₂.expect_pure
      rcases hw with rfl | rfl
      · exact .inl (@StatementStep.constructorCall _ n true _ _ _ hargs)
      · exact .inl (@StatementStep.constructorCall _ n false _ _ _ hargs)
    case isFalse => exact .inr h₁
  case h_3 => exact .inr h₁

theorem simpleStatement (h : Ran (simpleStatement (n + 1)) ts d ts') :
    ∃ ts₁, (ts = word "final" :: ts₁ ∨ ts = ts₁) ∧ SimpleStep Ran n ts₁ d ts' := by
  rw [Reader.simpleStatement] at h
  obtain ⟨b, ts₁, hb, h₁⟩ := h.bind
  have h₂ := h₁.rest_bind
  refine ⟨ts₁, ?_, ?_⟩
  · rcases hb.takes with ⟨_, ht⟩ | ⟨_, ht, _⟩
    · exact .inl ht
    · exact .inr ht.symm
  clear hb
  split at h₂
  case isTrue hdecl =>
    obtain ⟨ty, ts₂, hty, h₃⟩ := h₂.bind
    obtain ⟨name, ts₃, rfl, hk, h₄⟩ := h₃.identifier_bind
    rcases h₄.takes_ite with ⟨ts₄, rfl, h₅⟩ | ⟨-, h₅⟩
    · obtain ⟨e, ts₅, he, h₆⟩ := h₅.bind
      obtain ⟨rfl, rfl⟩ := h₆.pure_bind.expect_pure
      exact .initialized hdecl hty hk he
    · obtain ⟨rfl, rfl⟩ := h₅.pure_bind.expect_pure
      exact .declared hdecl hty hk
  case isFalse hdecl =>
    obtain ⟨e, ts₂, he, h₃⟩ := h₂.bind
    obtain ⟨rfl, rfl⟩ := h₃.expect_pure
    exact .exprStmt (Bool.eq_false_iff.mpr hdecl) he

theorem lambdaParams {ds : List Doc} (h : Ran (lambdaParams (n + 1)) ts ds ts') :
    LambdaParamsStep Ran n ts ds ts' := by
  rw [Reader.lambdaParams] at h
  rcases h.takes_ite with ⟨ts₁, rfl, h₁⟩ | ⟨hne, h₁⟩
  · obtain ⟨rfl, rfl⟩ := h₁.pure
    exact .none
  have comma {us vs : List Token} {b : Bool} (hb : Ran (takesMark ",") us b vs) :
      us = mark "," :: vs ∨ us = vs ∧ us.head? ≠ some (mark ",") := by
    rcases hb.takes with ⟨_, ht⟩ | ⟨_, ht, hne⟩
    · exact .inl ht
    · exact .inr ⟨ht.symm, hne⟩
  have h₂ := h₁.rest_bind
  split at h₂
  case isTrue hstart =>
    obtain ⟨ty, ts₁, hty, h₃⟩ := h₂.bind
    obtain ⟨name, ts₂, rfl, hk, h₄⟩ := h₃.pure_bind.identifier_bind
    obtain ⟨_, ts₃, hc, h₅⟩ := h₄.bind
    obtain ⟨ds, hds, rfl⟩ := h₅.bind_pure
    exact .typed hne hstart hty hk (comma hc) hds
  case isFalse hstart =>
    obtain ⟨name, ts₁, rfl, hk, h₃⟩ := h₂.pure_bind.identifier_bind
    obtain ⟨_, ts₂, hc, h₄⟩ := h₃.bind
    obtain ⟨ds, hds, rfl⟩ := h₄.bind_pure
    exact .bare (Bool.eq_false_iff.mpr hstart) hk (comma hc) hds

theorem paramsFrom {ds : List Doc} (h : Ran (paramsFrom (n + 1)) ts ds ts') :
    ParamsFromStep Ran n ts ds ts' := by
  rw [Reader.paramsFrom] at h
  obtain ⟨ty, ts₁, hty, h₁⟩ := h.bind
  obtain ⟨name, ts₂, rfl, hk, h₂⟩ := h₁.identifier_bind
  rcases h₂.takes_ite with ⟨ts₃, rfl, h₃⟩ | ⟨-, h₃⟩
  · obtain ⟨rfl, rfl⟩ := h₃.pure
    exact .last hty hk
  · obtain ⟨ts₃, rfl, h₄⟩ := h₃.expect_bind
    obtain ⟨ds, hds, rfl⟩ := h₄.bind_pure
    exact .more hty hk hds

end Ran

namespace Reads

variable {n : Nat} {ts ts' : List Token} {d : Doc}

theorem expression (h : ExpressionStep Reads n ts d ts') : Reads (expression (n + 1)) ts d ts' := by
  rw [Reader.expression]
  cases h with
  | lambda h => exact .bind h .pure
  | plain ho hl hne =>
    refine .bind ho (.bind hl (.bind .peek ?_))
    split
    case h_1 m heq =>
      split
      case h_1 op hop => exact absurd (token_of_assignOp? hop ▸ heq) (hne op)
      case h_2 => exact .pure
    case h_2 => exact .pure
  | @assign ts₁ ts₂ _ op l r ho hl hr =>
    refine .bind ho (.bind hl (.bind .peek ?_))
    dsimp only [List.head?_cons]
    rw [assignOp?_token]
    exact .bind .skip_one (.bind hr .pure)

theorem body (form : Lookahead.LambdaForm) {ps : List Doc} {o : Option Doc}
    (h : BodyStep Reads n (form == .parenthesized) ps ts o ts') :
    Reads (do
      let body ← if ← Reader.isAt "\x7b" then Reader.block n else Reader.expression n
      Pure.pure (some (plain (.lambda (form == .parenthesized)) [some body] ps))) ts o ts' := by
  cases h with
  | block hb h =>
    refine .bind .isAt ?_
    rw [if_pos (beq_iff_eq.mpr hb)]
    exact .bind h .pure
  | expression hb h =>
    refine .bind .isAt ?_
    rw [if_neg (fun h => hb (beq_iff_eq.mp h))]
    exact .bind h .pure

theorem lambda? {o : Option Doc} (h : LambdaStep Reads n ts o ts') : Reads (lambda? (n + 1)) ts o ts' := by
  rw [Reader.lambda?]
  refine .bind .rest ?_
  cases h with
  | none h =>
    rw [h]
    exact .pure
  | single hk h =>
    exact .bind (.identifier hk) (.bind .pure (.bind .expect (body .single h)))
  | parenthesized hform hps h =>
    rw [hform]
    exact .bind .skip_one (.bind hps (.bind .expect (body .parenthesized h)))

theorem conditional (h : ConditionalStep Reads n ts d ts') : Reads (conditional (n + 1)) ts d ts' := by
  rw [Reader.conditional]
  cases h with
  | plain h hne => exact .bind h (.bind (.leaves hne) .pure)
  | lambda hc hx hy =>
    exact .bind hc (.bind .takes (.bind hx (.bind .expect (.bind hy (.bind .pure .pure)))))
  | conditional hc hx ho hy =>
    exact .bind hc (.bind .takes (.bind hx (.bind .expect (.bind ho (.bind hy .pure)))))

theorem operation {least : Nat} {first : Doc} {ts₁ : List Token} (hf : Reads (Reader.unary n) ts first ts₁)
    (h : Reads (Reader.operatorsAfter n least first) ts₁ d ts') :
    Reads (operation (n + 1) least) ts d ts' := by
  rw [Reader.operation]
  exact .bind hf h

theorem operatorsAfter {least : Nat} {left : Doc} (h : OperatorStep Reads n least left ts d ts') :
    Reads (operatorsAfter (n + 1) least left) ts d ts' := by
  rw [Reader.operatorsAfter]
  refine .bind .peek ?_
  cases h with
  | instanceOf hl hty h =>
    dsimp only [List.head?_cons]
    rw [if_pos ⟨rfl, hl⟩]
    exact .bind .skip_one (.bind hty h)
  | @binary op r _ ts _ _ hl hr h =>
    dsimp only [List.head?_cons]
    rw [binaryOp?_token]
    dsimp only
    rw [if_pos hl]
    exact .bind .skip_one (.bind hr h)
  | stop hi hb =>
    split
    case h_1 w heq =>
      split
      case isTrue hw => exact absurd (hw.1 ▸ heq) (hi hw.2)
      case isFalse => exact .pure
    case h_2 m heq =>
      split
      case h_1 op hop =>
        split
        case isTrue hl => exact absurd (token_of_binaryOp? hop ▸ heq) (hb op hl)
        case isFalse => exact .pure
      case h_2 => exact .pure
    case h_3 => exact .pure

theorem unary (h : UnaryStep Reads n ts d ts') : Reads (unary (n + 1)) ts d ts' := by
  rw [Reader.unary]
  refine .bind .peek ?_
  cases h with
  | leading hpost hx =>
    rw [List.head?_cons, Option.bind_some, leadingOp?_token hpost]
    exact .bind .skip_one (.bind hx .pure)
  | cast hcast hty hx =>
    refine .bind .rest ?_
    rw [if_pos hcast]
    exact .bind .skip_one (.bind hty (.bind .expect (.bind hx .pure)))
  | operand hop hcast hf h =>
    rw [hop]
    refine .bind .rest ?_
    rw [if_neg (Bool.eq_false_iff.mp hcast)]
    exact .bind hf h

theorem suffixesAfter {d' : Doc} (h : SuffixStep Reads n d ts d' ts') :
    Reads (suffixesAfter (n + 1) d) ts d' ts' := by
  rw [Reader.suffixesAfter]
  refine .bind .peek ?_
  cases h with
  | callOn hk hargs h =>
    exact .bind .skip_one (.bind (.identifier hk) (.bind .isAt (.bind hargs h)))
  | field hk hne h =>
    refine .bind .skip_one (.bind (.identifier hk) (.bind .isAt ?_))
    rw [if_neg (fun h => hne (beq_iff_eq.mp h))]
    exact h
  | index hi h => exact .bind .skip_one (.bind hi (.bind .expect h))
  | @methodRef name _ _ _ hk h =>
    refine .bind .skip_one ?_
    by_cases hnew : name = "new"
    · subst hnew
      exact .bind .takes (.bind .pure h)
    · exact .bind (.leaves (by simpa using hnew)) (.bind (.identifier (hk.resolve_right hnew)) h)
  | @trailing op _ _ _ hop h =>
    cases op with
    | postInc | postDec => exact .bind .skip_one h
    | _ => cases hop
  | stop hne =>
    split
    case h_1 heq => exact absurd heq (hne _ (by decide))
    case h_2 heq => exact absurd heq (hne _ (by decide))
    case h_3 heq => exact absurd heq (hne _ (by decide))
    case h_4 heq => exact absurd heq (hne _ (by decide))
    case h_5 heq => exact absurd heq (hne _ (by decide))
    case h_6 => exact .pure

theorem primary (h : PrimaryStep Reads n ts d ts') : Reads (primary (n + 1)) ts d ts' := by
  rw [Reader.primary]
  refine .bind .peek ?_
  cases h with
  | @literal t kind ts hkind =>
    dsimp only [List.head?_cons]
    rw [hkind]
    exact .bind .skip_one .pure
  | paren h => exact .bind h .pure
  | newObject hty hargs => exact .bind .skip_one (.bind hty (.bind hargs .pure))
  | @call name args ts _ hk hargs =>
    obtain ⟨hlit, hnew⟩ := literal?_name hk
    dsimp only [List.head?_cons]
    rw [hlit]
    dsimp only
    split
    case h_1 heq => cases heq
    case h_2 heq => cases heq; exact absurd rfl hnew
    case h_3 => exact .bind (.identifier hk) (.bind .isAt (.bind hargs .pure))
    case h_4 h => exact absurd rfl (h name)
  | @name name ts hk hne =>
    obtain ⟨hlit, hnew⟩ := literal?_name hk
    dsimp only [List.head?_cons]
    rw [hlit]
    dsimp only
    split
    case h_1 heq => cases heq
    case h_2 heq => cases heq; exact absurd rfl hnew
    case h_3 =>
      refine .bind (.identifier hk) (.bind .isAt ?_)
      rw [if_neg (fun h => hne (beq_iff_eq.mp h))]
      exact .bind .peek .pure
    case h_4 h => exact absurd rfl (h name)

theorem inParens {ts₁ : List Token} (h : Reads (Reader.expression n) ts₁ d (mark ")" :: ts')) :
    Reads (inParens (n + 1)) (mark "(" :: ts₁) d ts' := by
  rw [Reader.inParens]
  exact .bind .expect (.bind h (.bind .expect .pure))

theorem arguments {ds : List Doc} (h : ArgumentsStep Reads n ts ds ts') :
    Reads (arguments (n + 1)) ts ds ts' := by
  rw [Reader.arguments]
  cases h with
  | none => exact .bind .expect (.bind .takes .pure)
  | some hne h => exact .bind .expect (.bind (.leaves hne) h)

theorem argumentsFrom {ds : List Doc} (h : ArgumentsFromStep Reads n ts ds ts') :
    Reads (argumentsFrom (n + 1)) ts ds ts' := by
  rw [Reader.argumentsFrom]
  cases h with
  | last h => exact .bind h (.bind .takes .pure)
  | more h hs =>
    exact .bind h (.bind (.leaves (by simp)) (.bind .expect (.bind hs .pure)))

theorem block {ts₁ : List Token} {ss : List Doc} (h : Reads (Reader.statements n) ts₁ ss ts') :
    Reads (block (n + 1)) (mark "\x7b" :: ts₁) (plain .block [] ss) ts' := by
  rw [Reader.block]
  exact .bind .expect (.bind h .pure)

theorem statements {ds : List Doc} (h : StatementsStep Reads n ts ds ts') :
    Reads (statements (n + 1)) ts ds ts' := by
  rw [Reader.statements]
  cases h with
  | none => exact .bind .takes .pure
  | more hne h hs => exact .bind (.leaves hne) (.bind h (.bind hs .pure))

theorem statement (h : StatementStep Reads n ts d ts') : Reads (statement (n + 1)) ts d ts' := by
  rw [Reader.statement]
  refine .bind .rest ?_
  cases h with
  | block h => exact h
  | empty => exact .bind .skip_one .pure
  | ifStmt hc hs hne =>
    exact .bind .skip_one (.bind hc (.bind hs (.bind (.leaves hne) .pure)))
  | ifElse hc hs ho =>
    exact .bind .skip_one (.bind hc (.bind hs (.bind .takes (.bind ho .pure))))
  | whileLoop hc hs => exact .bind .skip_one (.bind hc (.bind hs .pure))
  | forEach hty hk he hs =>
    exact .bind .skip_one (.bind .expect (.bind hty (.bind (.identifier hk) (.bind .expect
      (.bind he (.bind .expect (.bind hs .pure)))))))
  | returnNone => exact .bind .skip_one (.bind .isAt (.bind .pure (.bind .expect .pure)))
  | returnValue hne he =>
    refine .bind .skip_one (.bind .isAt ?_)
    rw [if_neg (fun h => hne (beq_iff_eq.mp h))]
    exact .bind he (.bind .pure (.bind .expect .pure))
  | throwStmt he => exact .bind .skip_one (.bind he (.bind .expect .pure))
  | breakStmt => exact .bind .skip_one (.bind .expect .pure)
  | continueStmt => exact .bind .skip_one (.bind .expect .pure)
  | @constructorCall isSuper _ _ _ hargs =>
    cases isSuper <;> exact .bind .skip_one (.bind hargs (.bind .expect .pure))

theorem simpleStatement (hne : ts.head? ≠ some (word "final")) (h : SimpleStep Reads n ts d ts') :
    Reads (simpleStatement (n + 1)) ts d ts' := by
  rw [Reader.simpleStatement]
  refine .bind (.leaves hne) (.bind .rest ?_)
  cases h with
  | declared hdecl hty hk =>
    rw [if_pos hdecl]
    exact .bind hty (.bind (.identifier hk) (.bind (.leaves (by simp)) (.bind .pure (.bind .expect .pure))))
  | initialized hdecl hty hk he =>
    rw [if_pos hdecl]
    exact .bind hty (.bind (.identifier hk) (.bind .takes (.bind he (.bind .pure (.bind .expect .pure)))))
  | exprStmt hdecl he =>
    rw [if_neg (Bool.eq_false_iff.mp hdecl)]
    exact .bind he (.bind .expect .pure)

theorem lambdaParams {ds : List Doc} (h : LambdaParamsStep Reads n ts ds ts') :
    Reads (lambdaParams (n + 1)) ts ds ts' := by
  rw [Reader.lambdaParams]
  have comma {us vs : List Token} (h : us = mark "," :: vs ∨ us = vs ∧ us.head? ≠ some (mark ",")) :
      ∃ b, Reads (takesMark ",") us b vs := by
    rcases h with rfl | ⟨rfl, h⟩
    · exact ⟨true, .takes⟩
    · exact ⟨false, .leaves h⟩
  cases h with
  | none => exact .bind .takes .pure
  | typed hne hstart hty hk hc hs =>
    obtain ⟨b, hb⟩ := comma hc
    refine .bind (.leaves hne) (.bind .rest ?_)
    rw [if_pos hstart]
    exact .bind hty (.bind .pure (.bind (.identifier hk) (.bind hb (.bind hs .pure))))
  | bare hstart hk hc hs =>
    obtain ⟨b, hb⟩ := comma hc
    refine .bind (.leaves (by simp)) (.bind .rest ?_)
    rw [if_neg (Bool.eq_false_iff.mp hstart)]
    exact .bind .pure (.bind (.identifier hk) (.bind hb (.bind hs .pure)))

theorem paramsFrom {ds : List Doc} (h : ParamsFromStep Reads n ts ds ts') :
    Reads (paramsFrom (n + 1)) ts ds ts' := by
  rw [Reader.paramsFrom]
  cases h with
  | last hty hk => exact .bind hty (.bind (.identifier hk) (.bind .takes .pure))
  | more hty hk hs =>
    exact .bind hty (.bind (.identifier hk) (.bind (.leaves (by simp)) (.bind .expect (.bind hs .pure))))

end Reads

end TreeTidy.Reader
