import TreeTidy.Proofs.Source.Alike
import TreeTidy.Proofs.Source.Opening
import TreeTidy.Proofs.Source.Printed
import TreeTidy.Proofs.Source.RereadTypes
import TreeTidy.Proofs.Source.Steps
/-!
Reading expressions again. An expression that was read is read from its own tokens, too, if what comes
after it looks like what came after it the first time. The readers call each other, so what is known of
all of them is told for the fuel that they are given; here are the steps of those of expressions.
-/
namespace TreeTidy.Reader

open Doc (plain Formed Separate)
open Lookahead (After Before Within lambdaForm? startsCast afterAngles afterType?)
open Token (AllLexed Balanced commas inParens inBraces mark weightOf word)

variable {n : Nat} {ts ts' ts₁ rest : List Token} {d left : Doc}

/-- Whether tokens are none that decide what is read in front of them. -/
def Shut (rest : List Token) : Prop := ∀ m ∈ [".", "[", "->", "("], rest.head? ≠ some (mark m)

theorem shut_mark {m : String} (h : m ∉ [".", "[", "->", "("]) : Shut (mark m :: rest) := by
  rintro m' hm' ⟨⟩
  exact h hm'

/-- What is read in front of tokens that do not decide it. -/
def ReadsShut {α : Type} (r : Nat → Reader α) (g : Nat) (ts : List Token) (a : α) (rest : List Token) :
    Prop :=
  Shut rest → Reads (r g) ts a rest

/-- What is known of an expression that was read: what it is, that it looks the same ahead, and that it is
read again, with so many calls to spare. -/
structure ExprRead (reads : Nat → List Token → Doc → List Token → Prop) (spare : Nat) (form : Form)
    (ts : List Token) (d : Doc) (ts' : List Token) : Prop where
  formed : Formed form d
  lexed : AllLexed ts'
  before : ∀ {q rest}, After q ts' rest → Before q ts (d.tokens ++ rest)
  again : d.All Separate → ∀ {g rest}, 10 * weightOf d.tokens + spare ≤ g → After False ts' rest →
    reads g (d.tokens ++ rest) d rest

/-- What is known of the tokens `more` that were read after the first part of an expression. -/
structure MoreRead (reads : Nat → Doc → List Token → Doc → List Token → Prop) (form : Form) (left : Doc)
    (more : List Token) (ts : List Token) (d : Doc) (ts' : List Token) : Prop where
  formed : Formed form left → Formed form d
  lexed : AllLexed ts'
  tokens : d.tokens = left.tokens ++ more
  first : d.All Separate → left.All Separate
  after : ∀ {q rest}, After q ts' rest → After q ts (more ++ rest)
  again : d.All Separate → ∀ {g rest}, 10 * weightOf more + 1 ≤ g → After False ts' rest →
    reads g left (more ++ rest) d rest

/-- One part, as the tokens `t :: us`, before those that were read after it. -/
theorem MoreRead.cons {reads : Nat → Doc → List Token → Doc → List Token → Prop} {form : Form}
    {left left' : Doc} {t : Token} {us more ts₁ : List Token} (hm : MoreRead reads form left' more ts₁ d ts')
    (hf : Formed form left → Formed form left') (htokens : left'.tokens = left.tokens ++ t :: us)
    (hfirst : left'.All Separate → left.All Separate)
    (hafter : ∀ {q rest}, After q ts₁ rest → After q ts (t :: (us ++ rest)))
    (hagain : left'.All Separate → ∀ {g rest}, 10 * weightOf us + 10 ≤ g → After False ts₁ (more ++ rest) →
      reads g left' (more ++ rest) d rest → reads (g + 1) left (t :: (us ++ (more ++ rest))) d rest) :
    MoreRead reads form left (t :: (us ++ more)) ts d ts' where
  formed h := hm.formed (hf h)
  lexed := hm.lexed
  tokens := by rw [hm.tokens, htokens, List.append_assoc, List.cons_append]
  first hs := hfirst (hm.first hs)
  after ha := by
    rw [List.cons_append, List.append_assoc]
    exact hafter (hm.after ha)
  again hs g rest hg ha := by
    rw [Token.weightOf_cons, Token.weightOf_append] at hg
    rw [List.cons_append, List.append_assoc]
    have := Token.one_le_weight t
    obtain ⟨g, rfl⟩ := Nat.exists_eq_add_one.mpr (show 0 < g by omega)
    exact hagain (hm.first hs) (by omega) (hm.after ha) (hm.again hs (by omega) ha)

/-- What is known of a sequence that was read up to what closes it. -/
structure ListRead (r : Nat → Reader (List Doc)) (form : Form) (tokens : List Doc → List Token)
    (ds : List Doc) (ts' : List Token) : Prop where
  formed : ∀ d ∈ ds, Formed form d
  lexed : AllLexed ts'
  again : (∀ d ∈ ds, d.All Separate) → ∀ {g rest}, 10 * weightOf (tokens ds) ≤ g →
    Reads (r g) (tokens ds ++ rest) ds rest

/-- What is known of something that was read and ends by itself. -/
structure UnitRead (r : Nat → Reader Doc) (form : Form) (d : Doc) (ts' : List Token) : Prop where
  formed : Formed form d
  lexed : AllLexed ts'
  again : d.All Separate → ∀ {g rest}, 10 * weightOf d.tokens ≤ g → Reads (r g) (d.tokens ++ rest) d rest

/-- What is known of a statement that was read: an alternative may only follow if it did. -/
structure StatementRead (r : Nat → Reader Doc) (d : Doc) (ts' : List Token) : Prop where
  formed : Formed .statement d
  lexed : AllLexed ts'
  again : d.All Separate → ∀ {g rest}, 10 * weightOf d.tokens + 1 ≤ g →
    (rest.head? = some (word "else") → ts'.head? = some (word "else")) → Reads (r g) (d.tokens ++ rest) d rest

/-- Arguments or parameters up to the parenthesis that closes them. -/
def listed (ds : List Doc) : List Token := commas (ds.map Doc.tokens) ++ [mark ")"]

/-- Statements or members up to the brace that closes them. -/
def stacked (ds : List Doc) : List Token := (ds.map Doc.tokens).flatten ++ [mark "\x7d"]

/-- What is known of what the readers of expressions and statements read with so much fuel. -/
structure Rereads (n : Nat) : Prop where
  expression {ts : List Token} {d : Doc} {ts' : List Token} : AllLexed ts → Ran (expression n) ts d ts' →
    ExprRead (ReadsShut Reader.expression) 4 .expression ts d ts'
  lambda {ts : List Token} {d : Doc} {ts' : List Token} : AllLexed ts → Ran (lambda? n) ts (some d) ts' →
    ExprRead (fun g ts d => ReadsShut lambda? g ts (some d)) 3 .expression ts d ts'
  conditional {ts : List Token} {d : Doc} {ts' : List Token} : AllLexed ts → Ran (conditional n) ts d ts' →
    ExprRead (ReadsShut Reader.conditional) 3 .operation ts d ts'
  operation {least : Nat} {ts : List Token} {d : Doc} {ts' : List Token} : AllLexed ts →
    Ran (operation n least) ts d ts' →
    ExprRead (ReadsShut (Reader.operation · least)) 2 .operation ts d ts'
  operatorsAfter {least : Nat} {left : Doc} {ts : List Token} {d : Doc} {ts' : List Token} : AllLexed ts →
    Ran (operatorsAfter n least left) ts d ts' →
    ∃ more, MoreRead (fun g left => ReadsShut (Reader.operatorsAfter · least left) g) .operation left more
      ts d ts' ∧ ∀ {rest}, Shut rest → Shut (more ++ rest)
  unary {ts : List Token} {d : Doc} {ts' : List Token} : AllLexed ts → Ran (unary n) ts d ts' →
    ExprRead (fun g => Reads (Reader.unary g)) 1 .operand ts d ts'
  suffixesAfter {left : Doc} {ts : List Token} {d : Doc} {ts' : List Token} : AllLexed ts →
    Ran (suffixesAfter n left) ts d ts' →
    ∃ more, MoreRead (fun g left => Reads (Reader.suffixesAfter g left)) .suffixed left more ts d ts'
  primary {ts : List Token} {d : Doc} {ts' : List Token} : AllLexed ts → Ran (primary n) ts d ts' →
    ExprRead (fun g => Reads (Reader.primary g)) 0 .suffixed ts d ts'
      ∧ ∀ {rest}, After False ts' rest → startsCast ts = false → startsCast (d.tokens ++ rest) = false
  arguments {ts : List Token} {ds : List Doc} {ts' : List Token} : AllLexed ts →
    Ran (arguments n) ts ds ts' →
    ListRead Reader.arguments .expression (fun ds => Token.inParens (commas (ds.map Doc.tokens))) ds ts'
  argumentsFrom {ts : List Token} {ds : List Doc} {ts' : List Token} : AllLexed ts →
    Ran (argumentsFrom n) ts ds ts' → ListRead Reader.argumentsFrom .expression listed ds ts' ∧ ds ≠ []
      ∧ ∀ {rest}, Within False ts (listed ds ++ rest)
  lambdaParams {ts : List Token} {ds : List Doc} {ts' : List Token} : AllLexed ts →
    Ran (lambdaParams n) ts ds ts' → ListRead Reader.lambdaParams .param listed ds ts'
  block {ts : List Token} {d : Doc} {ts' : List Token} : AllLexed ts → Ran (block n) ts d ts' →
    UnitRead Reader.block .block d ts'
  statements {ts : List Token} {ds : List Doc} {ts' : List Token} : AllLexed ts →
    Ran (statements n) ts ds ts' → ListRead Reader.statements .statement stacked ds ts'
  statement {ts : List Token} {d : Doc} {ts' : List Token} : AllLexed ts → Ran (statement n) ts d ts' →
    StatementRead Reader.statement d ts'
  inParens {ts : List Token} {d : Doc} {ts' : List Token} : AllLexed ts → Ran (inParens n) ts d ts' →
    ∃ ts₁, ts = mark "(" :: ts₁ ∧ Formed .expression d ∧ AllLexed ts' ∧
      (∀ {q rest}, After q (mark ")" :: ts') rest → Before q ts₁ (d.tokens ++ rest)) ∧
      (d.All Separate → ∀ {g rest}, 10 * weightOf d.tokens + 5 ≤ g →
        Reads (Reader.inParens g) (Token.inParens d.tokens ++ rest) d rest)
  simpleStatement {ts : List Token} {d : Doc} {ts' : List Token} : AllLexed ts →
    Ran (simpleStatement n) ts d ts' →
    UnitRead Reader.statement .statement d ts'

/-- What no lambda starts in the first time is still not read as one. -/
theorem reads_noLambda {g : Nat} (hf : Formed .operation d) (hs : Shut rest) (hg : 1 ≤ g) :
    Reads (lambda? g) (d.tokens ++ rest) none (d.tokens ++ rest) := by
  obtain ⟨g, rfl⟩ := Nat.exists_eq_add_one.mpr hg
  exact .lambda? (.none (hf.opening rest (hs _ (by decide)) (hs _ (by decide))).2)

theorem ranNoLambda (h : Ran (lambda? n) ts none ts') : ts' = ts := by
  cases n with
  | zero =>
    rw [lambda?] at h
    exact h.exhausted.elim
  | succ n =>
    generalize ho : (none : Option Doc) = o at h
    cases h.lambda? with
    | none => rfl
    | single _ h => cases h <;> cases ho
    | parenthesized _ _ h => cases h <;> cases ho

theorem head_expression (h : Formed .expression d) (hr : rest.head? ≠ some (mark "->"))
    (hr' : rest.head? ≠ some (mark "(")) : (d.tokens ++ rest).head? ≠ some (mark ")") := by
  intro hclose
  obtain ⟨us, hus⟩ := List.head?_eq_some_iff.mp hclose
  have := h.opening_expression hr hr'
  rw [hus] at this
  exact absurd this.1 (by decide)

/-- A type that was read starts with the word that it started with. -/
theorem head_type (h : TypeRead type 2 ts d ts') : ts.head? = (d.tokens ++ rest).head? := by
  obtain ⟨w, hw⟩ := h.formed.leads
  obtain ⟨us, hw⟩ := hw 0
  rw [h.head, Doc.tokens, hw]
  rfl

theorem within_type {q : Prop} (h : TypeRead type 2 ts d ts') (hw : Within q ts' rest) :
    Within q ts (d.tokens ++ rest) := fun k hk => by
  rw [h.depth k hk, Doc.tokens, Lookahead.afterAngles_type h.formed rfl hk (by omega),
    if_neg (by omega), Int.natCast_zero, Int.sub_zero]
  exact hw k hk

theorem startsCast_of_head (h : ts.head? ≠ some (mark "(")) : startsCast ts = false := by
  unfold startsCast
  split
  case h_1 => exact absurd rfl h
  case h_2 => rfl

theorem before_literal {q : Prop} {t : Token} {kind : NodeKind} (h : literal? t = some kind)
    (ha : After q ts' rest) : Before q (t :: ts') (t :: rest) := by
  unfold literal? at h
  split at h <;>
    first
    | exact .keyword (by decide) (by decide) ha.head ha.within
    | exact .literal rfl (by simp) (by simp)
    | cases h

theorem formed_name {name : String} (h : IsName name) (following : Option Token) :
    Formed .suffixed (plain (nameKind name following) [] [])
      ∧ (plain (nameKind name following) [] []).tokens = [word name] := by
  unfold nameKind
  split
  · exact ⟨.typeName h, rfl⟩
  · exact ⟨.nameExpr h, rfl⟩

theorem listed_singleton : listed [d] = d.tokens ++ [mark ")"] := by
  rw [listed, List.map_singleton, Token.commas_singleton]

theorem listed_cons {ds : List Doc} (h : ds ≠ []) : listed (d :: ds) = d.tokens ++ mark "," :: listed ds := by
  obtain ⟨e, es, rfl⟩ := List.exists_cons_of_ne_nil h
  rw [listed, List.map_cons, List.map_cons, Token.commas_cons_cons, List.append_assoc]
  rfl

/-- An argument or a parameter and the parenthesis. -/
theorem ListRead.singleton_listed {r : Nat → Reader (List Doc)} {form : Form} (hf : Formed form d)
    (hl : AllLexed ts') (h : d.All Separate → ∀ {g rest}, 10 * weightOf d.tokens + 9 ≤ g →
      Reads (r (g + 1)) (d.tokens ++ mark ")" :: rest) [d] rest) : ListRead r form listed [d] ts' := by
  refine ⟨List.forall_mem_singleton.mpr hf, hl, fun hs g rest hg => ?_⟩
  rw [listed_singleton, Token.weightOf_append, Token.weightOf_cons] at hg
  rw [listed_singleton, List.append_assoc]
  have := Token.one_le_weight (mark ")")
  obtain ⟨g, rfl⟩ := Nat.exists_eq_add_one.mpr (show 0 < g by omega)
  exact h (List.forall_mem_singleton.mp hs) (by omega)

/-- An argument or a parameter, a comma, and those up to the parenthesis. -/
theorem ListRead.cons_listed {r : Nat → Reader (List Doc)} {form : Form} {ds : List Doc}
    (hf : Formed form d) (hne : ds ≠ []) (hds : ListRead r form listed ds ts')
    (h : d.All Separate → ∀ {g rest}, 10 * weightOf d.tokens + 9 ≤ g → Reads (r g) (listed ds ++ rest) ds rest →
      Reads (r (g + 1)) (d.tokens ++ mark "," :: (listed ds ++ rest)) (d :: ds) rest) :
    ListRead r form listed (d :: ds) ts' := by
  refine ⟨List.forall_mem_cons.mpr ⟨hf, hds.formed⟩, hds.lexed, fun hs g rest hg => ?_⟩
  obtain ⟨hsd, hsds⟩ := List.forall_mem_cons.mp hs
  rw [listed_cons hne, Token.weightOf_append, Token.weightOf_cons] at hg
  rw [listed_cons hne, List.append_assoc, List.cons_append]
  have := Token.one_le_weight (mark ",")
  obtain ⟨g, rfl⟩ := Nat.exists_eq_add_one.mpr (show 0 < g by omega)
  exact h hsd (by omega) (hds.again hsds (by omega))

/-- After a parameter comes a comma, or what closes the parentheses. -/
theorem listed_next (d : Doc) (ds : List Doc) : ∃ m us, listed (d :: ds) = d.tokens ++ mark m :: us
    ∧ m ∈ [",", ")"] ∧ weightOf (listed ds) ≤ weightOf (mark m :: us)
    ∧ ∀ rest, mark m :: (us ++ rest) = mark "," :: (listed ds ++ rest)
      ∨ mark m :: (us ++ rest) = listed ds ++ rest ∧ (mark m :: (us ++ rest)).head? ≠ some (mark ",") := by
  rcases ds with - | ⟨e, ds⟩
  · exact ⟨")", [], listed_singleton, by decide, Nat.le_refl _, fun _ => .inr ⟨rfl, by simp⟩⟩
  · exact ⟨",", _, listed_cons (List.cons_ne_nil _ _), by decide, Nat.le_add_left _ _, fun _ => .inl rfl⟩

namespace Rereads

theorem expression_succ (ih : Rereads n) (hl : AllLexed ts) (h : Ran (Reader.expression (n + 1)) ts d ts') :
    ExprRead (ReadsShut Reader.expression) 4 .expression ts d ts' := by
  cases h.expression with
  | lambda hx =>
    have hx := ih.lambda hl hx
    refine ⟨hx.formed, hx.lexed, hx.before, fun hs g rest hg ha hshut => ?_⟩
    obtain ⟨g, rfl⟩ := Nat.exists_eq_add_one.mpr (show 0 < g by omega)
    exact .expression (.lambda (hx.again hs (by omega) ha hshut))
  | plain ho hx hne =>
    obtain rfl := ranNoLambda ho
    have hx := ih.conditional hl hx
    refine ⟨.ofOperation hx.formed, hx.lexed, hx.before, fun hs g rest hg ha hshut => ?_⟩
    obtain ⟨g, rfl⟩ := Nat.exists_eq_add_one.mpr (show 0 < g by omega)
    refine .expression (.plain (reads_noLambda hx.formed hshut (by omega)) (hx.again hs (by omega) ha hshut) ?_)
    exact fun op => ha.head ▸ hne op
  | @assign ts₁ ts₂ ts' op l r ho hx hy =>
    obtain rfl := ranNoLambda ho
    have hx := ih.conditional hl hx
    have hy := ih.expression hx.lexed.tail hy
    have after {q : Prop} {rest : List Token} :
        After q (mark op.token :: ts₂) (mark op.token :: (r.tokens ++ rest)) := by
      cases op <;> exact .stop rfl (by decide)
    have hop : op.token ∉ [".", "[", "->", "("] := by cases op <;> decide
    refine ⟨.ofOperation (.assign hx.formed hy.formed), hy.lexed, fun {q rest} ha => ?_,
      fun hs g rest hg ha hshut => ?_⟩
    · rw [Doc.tokens_assign, List.append_assoc]
      exact hx.before after
    · rw [Doc.tokens_assign, Token.weightOf_append, Token.weightOf_cons] at hg
      rw [Doc.tokens_assign, List.append_assoc, List.cons_append]
      have := Token.one_le_weight (mark op.token)
      obtain ⟨g, rfl⟩ := Nat.exists_eq_add_one.mpr (show 0 < g by omega)
      exact .expression (.assign (reads_noLambda hx.formed (shut_mark hop) (by omega))
        (hx.again (hs.slot (by simp)) (by omega) after (shut_mark hop))
        (hy.again (hs.slot (by simp)) (by omega) ha hshut))

theorem body_read {parenthesized : Bool} {ps : List Doc} (ih : Rereads n) (hl : AllLexed ts)
    (h : BodyStep Ran n parenthesized ps ts (some d) ts') :
    ∃ b, d = plain (.lambda parenthesized) [some b] ps ∧ Formed .body b ∧ AllLexed ts' ∧
      (b.All Separate → ∀ {g rest}, 10 * weightOf b.tokens + 4 ≤ g → After False ts' rest → Shut rest →
        BodyStep Reads g parenthesized ps (b.tokens ++ rest) (some d) rest) := by
  generalize ho : some d = o at h
  cases h with
  | block hbrace hb =>
    cases ho
    have hb := ih.block hl hb
    refine ⟨_, rfl, .ofBlock hb.formed, hb.lexed, fun hs g rest hg _ _ => .block ?_ (hb.again hs (by omega))⟩
    cases hb.formed
    rw [Doc.tokens_block]
    rfl
  | expression hbrace hb =>
    cases ho
    have hb := ih.expression hl hb
    refine ⟨_, rfl, .ofExpression hb.formed, hb.lexed, fun hs g rest hg ha hshut => ?_⟩
    exact .expression ((hb.before ha).glimpse.head ▸ hbrace) (hb.again hs hg ha hshut)

theorem lambda_succ (ih : Rereads n) (hl : AllLexed ts) (h : Ran (lambda? (n + 1)) ts (some d) ts') :
    ExprRead (fun g ts d => ReadsShut lambda? g ts (some d)) 3 .expression ts d ts' := by
  have arrow {q : Prop} {ss ps : List Token} : After q (mark "->" :: ss) (mark "->" :: ps) :=
    .stop rfl (by decide)
  generalize ho : some d = o at h
  cases h.lambda? with
  | none => cases ho
  | @single name _ ts _ hk hb =>
    subst ho
    obtain ⟨b, rfl, hfb, hl', hb⟩ := ih.body_read hl.tail.tail hb
    have hp : Formed .param (param name none) := .bare ⟨hl.head, hk⟩
    refine ⟨.lambda (by simpa using hp) (fun _ => ⟨name, rfl⟩) hfb, hl', fun _ => ?_,
      fun hs g rest hg ha hshut => ?_⟩
    · exact .word arrow
    · rw [Doc.tokens_single, Token.weightOf_cons, Token.weightOf_cons] at hg
      have := Token.one_le_weight (word name)
      obtain ⟨g, rfl⟩ := Nat.exists_eq_add_one.mpr (show 0 < g by omega)
      exact .lambda? (.single hk (hb (hs.slot (by simp)) (by omega) ha hshut))
  | @parenthesized ps _ ts ts₁ _ hform hps hb =>
    subst ho
    have hps := ih.lambdaParams hl.tail hps
    obtain ⟨b, rfl, hfb, hl', hb⟩ := ih.body_read hps.lexed.tail hb
    have htokens : (plain (.lambda true) [some b] ps).tokens
        = mark "(" :: (listed ps ++ mark "->" :: b.tokens) := Doc.tokens_lambda
    refine ⟨.lambda hps.formed (by simp) hfb, hl', fun _ => ?_, fun hs g rest hg ha hshut => ?_⟩
    · rw [htokens]
      exact .mark (by decide)
    · rw [htokens, Token.weightOf_cons, Token.weightOf_append, Token.weightOf_cons] at hg
      rw [htokens, List.cons_append, List.append_assoc, List.cons_append]
      have := Token.one_le_weight (mark "(")
      have := Token.one_le_weight (mark "->")
      obtain ⟨g, rfl⟩ := Nat.exists_eq_add_one.mpr (show 0 < g by omega)
      refine .lambda? (.parenthesized ?_ (hps.again (fun p hp => hs.item hp) (by omega))
        (hb (hs.slot (by simp)) (by omega) ha hshut))
      refine Doc.lambdaForm_arrow (.commas fun us hus => ?_)
      obtain ⟨p, -, rfl⟩ := List.mem_map.mp hus
      exact p.balanced 0

/-- A condition with its two branches, of which the last one may be a lambda or none. -/
theorem conditional_read {c x y : Doc} {ts₂ ts₃ : List Token}
    (hc : ExprRead (ReadsShut (Reader.operation · 1)) 2 .operation ts c (mark "?" :: ts₂))
    (hx : ExprRead (ReadsShut Reader.expression) 4 .expression ts₂ x (mark ":" :: ts₃))
    (hf : Formed .expression y) (hl : AllLexed ts')
    (hy : y.All Separate → ∀ {g us vs rest}, 10 * weightOf y.tokens + 3 ≤ g → After False ts' rest →
      Shut rest → Reads (Reader.operation g 1) us c (mark "?" :: vs) →
      Reads (Reader.expression g) vs x (mark ":" :: (y.tokens ++ rest)) →
      ConditionalStep Reads g us (plain .conditional [some c, some x, some y] []) rest) :
    ExprRead (ReadsShut Reader.conditional) 3 .operation ts
      (plain .conditional [some c, some x, some y] []) ts' := by
  have colon {q : Prop} {us : List Token} : After q (mark ":" :: ts₃) (mark ":" :: us) :=
    .stop rfl (by decide)
  have question {q : Prop} {us : List Token} :
      After q (mark "?" :: ts₂) (mark "?" :: (x.tokens ++ mark ":" :: us)) :=
    .pass rfl (by decide) (hx.before colon).within
  refine ⟨.conditional hc.formed hx.formed hf, hl, fun _ => ?_, fun hs g rest hg ha hshut => ?_⟩
  · rw [Doc.tokens_conditional, List.append_assoc, List.cons_append, List.append_assoc]
    exact hc.before question
  · rw [Doc.tokens_conditional, Token.weightOf_append, Token.weightOf_cons, Token.weightOf_append,
      Token.weightOf_cons] at hg
    rw [Doc.tokens_conditional, List.append_assoc, List.cons_append, List.append_assoc, List.cons_append]
    have := Token.one_le_weight (mark "?")
    obtain ⟨g, rfl⟩ := Nat.exists_eq_add_one.mpr (show 0 < g by omega)
    exact .conditional (hy (hs.slot (by simp)) (by omega) ha hshut
      (hc.again (hs.slot (by simp)) (by omega) question (shut_mark (by decide)))
      (hx.again (hs.slot (by simp)) (by omega) colon (shut_mark (by decide))))

theorem conditional_succ (ih : Rereads n) (hl : AllLexed ts) (h : Ran (Reader.conditional (n + 1)) ts d ts') :
    ExprRead (ReadsShut Reader.conditional) 3 .operation ts d ts' := by
  cases h.conditional with
  | plain hc hne =>
    have hc := ih.operation hl hc
    refine ⟨hc.formed, hc.lexed, hc.before, fun hs g rest hg ha hshut => ?_⟩
    obtain ⟨g, rfl⟩ := Nat.exists_eq_add_one.mpr (show 0 < g by omega)
    exact .conditional (.plain (hc.again hs (by omega) ha hshut) (ha.head ▸ hne))
  | lambda hc hx hy =>
    have hc := ih.operation hl hc
    have hx := ih.expression hc.lexed.tail hx
    have hy := ih.lambda hx.lexed.tail hy
    exact conditional_read hc hx hy.formed hy.lexed fun hs _ _ _ _ hg ha hshut hc hx =>
      .lambda hc hx (hy.again hs hg ha hshut)
  | conditional hc hx ho hy =>
    obtain rfl := ranNoLambda ho
    have hc := ih.operation hl hc
    have hx := ih.expression hc.lexed.tail hx
    have hy := ih.conditional hx.lexed.tail hy
    exact conditional_read hc hx (.ofOperation hy.formed) hy.lexed fun hs _ _ _ _ hg ha hshut hc hx =>
      .conditional hc hx (reads_noLambda hy.formed hshut (by omega)) (hy.again hs hg ha hshut)

theorem operation_succ {least : Nat} (ih : Rereads n) (hl : AllLexed ts)
    (h : Ran (Reader.operation (n + 1) least) ts d ts') :
    ExprRead (ReadsShut (Reader.operation · least)) 2 .operation ts d ts' := by
  obtain ⟨first, ts₁, hf, hm⟩ := h.operation
  have hf := ih.unary hl hf
  obtain ⟨more, hm, hshut'⟩ := ih.operatorsAfter hf.lexed hm
  refine ⟨hm.formed (.ofOperand hf.formed), hm.lexed, fun ha => ?_, fun hs g rest hg ha hshut => ?_⟩
  · rw [hm.tokens, List.append_assoc]
    exact hf.before (hm.after ha)
  · rw [hm.tokens, Token.weightOf_append] at hg
    rw [hm.tokens, List.append_assoc]
    obtain ⟨_, _, hlead, -⟩ := hf.formed.leads
    have := Token.one_le_weightOf hlead
    obtain ⟨g, rfl⟩ := Nat.exists_eq_add_one.mpr (show 0 < g by omega)
    exact .operation (hf.again (hm.first hs) (by omega) (hm.after ha)) (hm.again hs (by omega) ha hshut)

theorem operatorsAfter_succ {least : Nat} (ih : Rereads n) (hl : AllLexed ts)
    (h : Ran (Reader.operatorsAfter (n + 1) least left) ts d ts') :
    ∃ more, MoreRead (fun g left => ReadsShut (Reader.operatorsAfter · least left) g) .operation left more
      ts d ts' ∧ ∀ {rest}, Shut rest → Shut (more ++ rest) := by
  cases h.operatorsAfter with
  | @instanceOf ty _ ts ts₁ _ hleast hty hm =>
    have hty := (typesRead n).1 hl.tail hty
    obtain ⟨more, hm, hshut⟩ := ih.operatorsAfter hty.lexed hm
    refine ⟨_, hm.cons (.instanceOf · hty.formed) Doc.tokens_instanceOf (·.slot (by simp))
      (fun ha => .instanceOf (head_type hty) (within_type hty ha.within))
      fun _ g rest hg ha hagain hs => ?_, fun _ => ?_⟩
    · have hends := hshut hs
      exact .operatorsAfter (.instanceOf hleast
        (hty.reads ⟨hends _ (by decide), hends _ (by decide), (ha.head ▸ ·)⟩ (by omega)) (hagain hs))
    · rintro m hm ⟨⟩
  | @binary op r _ ts ts₁ _ hleast hr hm =>
    have hr := ih.operation hl.tail hr
    obtain ⟨more, hm, hshut⟩ := ih.operatorsAfter hr.lexed hm
    refine ⟨_, hm.cons (.binary · hr.formed) Doc.tokens_binary (·.slot (by simp))
      (fun ha => .operator (hr.before ha)) fun hs g rest hg ha hagain hs' => ?_,
      fun _ => shut_mark (by cases op <;> decide)⟩
    exact .operatorsAfter (.binary hleast (hr.again (hs.slot (by simp)) (by omega) ha (hshut hs'))
      (hagain hs'))
  | stop hi hb =>
    refine ⟨[], ⟨id, hl, (List.append_nil _).symm, id, id, fun hs g rest hg ha hs' => ?_⟩, id⟩
    obtain ⟨g, rfl⟩ := Nat.exists_eq_add_one.mpr (show 0 < g by omega)
    exact .operatorsAfter (.stop (fun hle => ha.head ▸ hi hle) fun op hle => ha.head ▸ hb op hle)

theorem unary_succ (ih : Rereads n) (hl : AllLexed ts) (h : Ran (Reader.unary (n + 1)) ts d ts') :
    ExprRead (fun g => Reads (Reader.unary g)) 1 .operand ts d ts' := by
  cases h.unary with
  | @leading op x ts _ hpost hx =>
    have hx := ih.unary hl.tail hx
    refine ⟨.leading hpost hx.formed, hx.lexed, fun ha => ?_, fun hs g rest hg ha => ?_⟩
    · rw [Doc.tokens_leading hpost]
      exact .mark (by cases op <;> rfl)
    · rw [Doc.tokens_leading hpost, Token.weightOf_cons] at hg
      rw [Doc.tokens_leading hpost]
      have := Token.one_le_weight (mark op.token)
      obtain ⟨g, rfl⟩ := Nat.exists_eq_add_one.mpr (show 0 < g by omega)
      exact .unary (.leading hpost (hx.again (hs.slot (by simp)) (by omega) ha))
  | @cast ty x ts ts₁ _ hcast hty hx =>
    have hskip := afterType_ran hl.tail hty
    have hty := (typesRead n).1 hl.tail hty
    have hx := ih.unary hty.lexed.tail hx
    have htokens : (plain .castExpr [some ty, some x] []).tokens
        = mark "(" :: (ty.tokens ++ mark ")" :: x.tokens) := by
      rw [Doc.tokens_cast, Token.inParens, List.cons_append, List.cons_append, List.append_assoc]
      rfl
    refine ⟨.cast hty.formed hx.formed, hx.lexed, fun ha => ?_, fun hs g rest hg ha => ?_⟩
    · rw [htokens]
      exact .mark (by decide)
    · rw [htokens, Token.weightOf_cons, Token.weightOf_append, Token.weightOf_cons] at hg
      rw [htokens, List.cons_append, List.append_assoc, List.cons_append]
      have := Token.one_le_weight (mark "(")
      obtain ⟨g, rfl⟩ := Nat.exists_eq_add_one.mpr (show 0 < g by omega)
      refine .unary (.cast ?_ (hty.reads ⟨by simp, by simp, by simp⟩ (by omega))
        (hx.again (hs.slot (by simp)) (by omega) ha))
      have hskip' : afterType? (ty.tokens ++ mark ")" :: (x.tokens ++ rest))
          = some (mark ")" :: (x.tokens ++ rest)) := by
        rw [Lookahead.afterType_type hty.formed rfl (by simp) (by simp),
          Lookahead.afterBrackets_other (by simp)]
      rw [← hcast]
      exact (Lookahead.startsCast_congr hskip hskip' (head_type hty) (hx.before ha).glimpse.head).symm
  | @operand first _ _ ts₁ _ hop hcast hf hm =>
    obtain ⟨hf, hcast'⟩ := ih.primary hl hf
    obtain ⟨more, hm⟩ := ih.suffixesAfter hf.lexed hm
    refine ⟨.ofSuffixed (hm.formed hf.formed), hm.lexed, fun ha => ?_, fun hs g rest hg ha => ?_⟩
    · rw [hm.tokens, List.append_assoc]
      exact hf.before (hm.after ha)
    · rw [hm.tokens, Token.weightOf_append] at hg
      rw [hm.tokens, List.append_assoc]
      obtain ⟨_, _, hlead, -⟩ := hf.formed.leads
      have := Token.one_le_weightOf hlead
      obtain ⟨g, rfl⟩ := Nat.exists_eq_add_one.mpr (show 0 < g by omega)
      refine .unary (.operand ?_ (hcast' (hm.after ha) hcast)
        (hf.again (hm.first hs) (by omega) (hm.after ha)) (hm.again hs (by omega) ha))
      rw [← (hf.before (hm.after ha)).glimpse.head]
      exact hop

theorem suffixesAfter_succ (ih : Rereads n) (hl : AllLexed ts)
    (h : Ran (Reader.suffixesAfter (n + 1) left) ts d ts') :
    ∃ more, MoreRead (fun g left => Reads (Reader.suffixesAfter g left)) .suffixed left more ts d ts' := by
  cases h.suffixesAfter with
  | @callOn name args _ ts ts₁ _ hk hargs hm =>
    have hn : IsName name := ⟨hl.tail.head, hk⟩
    have hargs := ih.arguments hl.tail.tail hargs
    obtain ⟨more, hm⟩ := ih.suffixesAfter hargs.lexed hm
    refine ⟨_, hm.cons (.callOn · hn hargs.formed) Doc.tokens_callOn (·.slot (by simp))
      (fun _ => .point hk (.stop rfl (by decide))) fun hs g rest hg ha hagain => ?_⟩
    rw [Token.weightOf_cons] at hg
    exact .suffixesAfter (.callOn hk (hargs.again (fun a ha => hs.item ha) (by omega)) hagain)
  | @field name _ ts _ hk hne hm =>
    have hn : IsName name := ⟨hl.tail.head, hk⟩
    obtain ⟨more, hm⟩ := ih.suffixesAfter hl.tail.tail hm
    exact ⟨_, hm.cons (.field · hn) Doc.tokens_field (·.slot (by simp)) (.point hk)
      fun _ _ _ _ ha hagain => .suffixesAfter (.field hk (ha.head ▸ hne) hagain)⟩
  | @index i _ ts ts₁ _ hi hm =>
    have hi := ih.expression hl.tail hi
    obtain ⟨more, hm⟩ := ih.suffixesAfter hi.lexed.tail hm
    have close {q : Prop} {rest : List Token} (ha : After q ts₁ rest) :
        After q (mark "]" :: ts₁) (mark "]" :: rest) := .pass rfl (by decide) ha.within
    refine ⟨_, hm.cons (.index · hi.formed) Doc.tokens_index (·.slot (by simp)) (fun ha => ?_)
      fun hs g rest hg ha hagain => ?_⟩
    · rw [List.append_assoc]
      exact .bracket (hi.before (close ha))
    · rw [Token.weightOf_append] at hg
      rw [List.append_assoc]
      exact .suffixesAfter (.index
        (hi.again (hs.slot (by simp)) (by omega) (close ha) (shut_mark (by decide))) hagain)
  | @methodRef name _ ts _ hk hm =>
    have hn : IsName name ∨ name = "new" := hk.imp_left fun hk => ⟨hl.tail.head, hk⟩
    obtain ⟨more, hm⟩ := ih.suffixesAfter hl.tail.tail hm
    exact ⟨_, hm.cons (.methodRef · hn) Doc.tokens_methodRef (·.slot (by simp))
      (fun _ => .stop rfl (by decide)) fun _ _ _ _ _ hagain => .suffixesAfter (.methodRef hk hagain)⟩
  | @trailing op _ ts _ hop hm =>
    obtain ⟨more, hm⟩ := ih.suffixesAfter hl.tail hm
    refine ⟨_, hm.cons (.trailing hop ·) (Doc.tokens_trailing hop) (·.slot (by simp)) (fun _ => ?_)
      fun _ _ _ _ _ hagain => .suffixesAfter (.trailing hop hagain)⟩
    cases op <;> exact .stop rfl (by decide)
  | stop hne =>
    refine ⟨[], id, hl, (List.append_nil _).symm, id, id, fun _ g rest hg ha => ?_⟩
    obtain ⟨g, rfl⟩ := Nat.exists_eq_add_one.mpr (show 0 < g by omega)
    exact .suffixesAfter (.stop fun m hm => ha.head ▸ hne m hm)

theorem primary_succ (ih : Rereads n) (hl : AllLexed ts) (h : Ran (Reader.primary (n + 1)) ts d ts') :
    ExprRead (fun g => Reads (Reader.primary g)) 0 .suffixed ts d ts'
      ∧ ∀ {rest}, After False ts' rest → startsCast ts = false → startsCast (d.tokens ++ rest) = false := by
  cases h.primary with
  | @literal t kind ts hkind =>
    obtain ⟨htokens, -, -⟩ := Doc.literal_written hkind
    refine ⟨⟨.literal hl.head hkind, hl.tail, fun ha => ?_, fun hs g rest hg ha => ?_⟩, fun ha _ => ?_⟩
    · rw [htokens]
      exact before_literal hkind ha
    · rw [htokens, Token.weightOf_cons] at hg
      rw [htokens]
      have := Token.one_le_weight t
      obtain ⟨g, rfl⟩ := Nat.exists_eq_add_one.mpr (show 0 < g by omega)
      exact .primary (.literal hkind)
    · rw [htokens]
      refine startsCast_of_head ?_
      rintro ⟨⟩
      cases hkind
  | @paren e ts _ he =>
    obtain ⟨ts₁, hts, hf, hl', hbefore, hagain⟩ := ih.inParens hl he
    cases hts
    have htokens {rest : List Token} :
        (plain .paren [some e] []).tokens ++ rest = mark "(" :: (e.tokens ++ mark ")" :: rest) := by
      rw [Doc.tokens_paren, Token.inParens, List.cons_append, List.cons_append, List.append_assoc]
      rfl
    refine ⟨⟨.paren hf, hl', fun ha => ?_, fun hs g rest hg ha => ?_⟩, fun ha hcast => ?_⟩
    · rw [htokens]
      exact .mark (by decide)
    · rw [Doc.tokens_paren, Token.inParens, Token.weightOf_append, Token.weightOf_cons] at hg
      have := Token.one_le_weight (mark "(")
      obtain ⟨g, rfl⟩ := Nat.exists_eq_add_one.mpr (show 0 < g by omega)
      exact .primary (.paren (hagain (hs.slot (by simp)) (by omega)))
    · rw [htokens]
      exact (hbefore (.close fun _ => ha.head)).startsCast hcast
  | @newObject ty args ts ts₁ _ hty hargs =>
    have hty := (typesRead n).1 hl.tail hty
    have hargs := ih.arguments hty.lexed hargs
    have htokens {rest : List Token} : (plain .newObject [some ty] args).tokens ++ rest
        = word "new" :: (ty.tokens ++ mark "(" :: (listed args ++ rest)) := by
      rw [Doc.tokens_newObject, List.cons_append, List.append_assoc]
      rfl
    refine ⟨⟨.newObject hty.formed hargs.formed, hargs.lexed, fun ha => ?_, fun hs g rest hg ha => ?_⟩,
      fun ha _ => startsCast_of_head (by rw [htokens]; simp)⟩
    · rw [htokens]
      exact .keyword (by decide) (by decide) (head_type hty) (within_type hty (.none rfl _ _))
    · rw [Doc.tokens_newObject, Token.weightOf_cons, Token.weightOf_append, Token.weight_word] at hg
      rw [htokens]
      obtain ⟨g, rfl⟩ := Nat.exists_eq_add_one.mpr (show 0 < g by omega)
      exact .primary (.newObject (hty.reads ⟨by simp, by simp, by simp⟩ (by omega))
        (hargs.again (fun a ha => hs.item ha) (by omega)))
  | @call name args ts _ hk hargs =>
    have hn : IsName name := ⟨hl.head, hk⟩
    have hargs := ih.arguments hl.tail hargs
    refine ⟨⟨.call hn hargs.formed, hargs.lexed, fun ha => ?_, fun hs g rest hg ha => ?_⟩, fun ha _ => ?_⟩
    · rw [Doc.tokens_call]
      exact .word (.stop rfl (by decide))
    · rw [Doc.tokens_call, Token.weightOf_cons, Token.weight_word] at hg
      rw [Doc.tokens_call]
      obtain ⟨g, rfl⟩ := Nat.exists_eq_add_one.mpr (show 0 < g by omega)
      exact .primary (.call hk (hargs.again (fun a ha => hs.item ha) (by omega)))
    · rw [Doc.tokens_call]
      exact startsCast_of_head (by simp)
  | @name name ts hk hne =>
    have hn : IsName name := ⟨hl.head, hk⟩
    obtain ⟨hf, htokens⟩ := formed_name hn ts'.head?
    refine ⟨⟨hf, hl.tail, fun ha => ?_, fun hs g rest hg ha => ?_⟩, fun ha _ => ?_⟩
    · rw [htokens]
      exact .word ha
    · rw [htokens, Token.weightOf_cons, Token.weight_word] at hg
      obtain ⟨g, rfl⟩ := Nat.exists_eq_add_one.mpr (show 0 < g by omega)
      rw [htokens, ha.head]
      exact .primary (.name hk (ha.head ▸ hne))
    · rw [htokens]
      exact startsCast_of_head (by simp)

theorem inParens_succ (ih : Rereads n) (hl : AllLexed ts) (h : Ran (Reader.inParens (n + 1)) ts d ts') :
    ∃ ts₁, ts = mark "(" :: ts₁ ∧ Formed .expression d ∧ AllLexed ts' ∧
      (∀ {q rest}, After q (mark ")" :: ts') rest → Before q ts₁ (d.tokens ++ rest)) ∧
      (d.All Separate → ∀ {g rest}, 10 * weightOf d.tokens + 5 ≤ g →
        Reads (Reader.inParens g) (Token.inParens d.tokens ++ rest) d rest) := by
  obtain ⟨ts₁, rfl, hx⟩ := h.inParens
  have hx := ih.expression hl.tail hx
  refine ⟨ts₁, rfl, hx.formed, hx.lexed.tail, hx.before, fun hs g rest hg => ?_⟩
  rw [Token.inParens, List.cons_append, List.cons_append, List.append_assoc]
  obtain ⟨g, rfl⟩ := Nat.exists_eq_add_one.mpr (show 0 < g by omega)
  exact .inParens (hx.again hs (by omega) (.close (by simp)) (shut_mark (by decide)))

theorem arguments_succ {ds : List Doc} (ih : Rereads n) (hl : AllLexed ts)
    (h : Ran (Reader.arguments (n + 1)) ts ds ts') :
    ListRead Reader.arguments .expression (fun ds => Token.inParens (commas (ds.map Doc.tokens))) ds ts' := by
  cases h.arguments with
  | none =>
    refine ⟨by simp, hl.tail.tail, fun _ g rest hg => ?_⟩
    obtain ⟨g, rfl⟩ := Nat.exists_eq_add_one.mpr (show 0 < g by
      rw [Token.inParens, Token.weightOf_append, Token.weightOf_cons] at hg
      have := Token.one_le_weight (mark "(")
      omega)
    exact .arguments .none
  | @some _ ts _ hne hds =>
    obtain ⟨hds, hne', -⟩ := ih.argumentsFrom hl.tail hds
    refine ⟨hds.formed, hds.lexed, fun hs g rest hg => ?_⟩
    change 10 * weightOf (mark "(" :: listed ds) ≤ g at hg
    change Reads _ (mark "(" :: (listed ds ++ rest)) _ _
    rw [Token.weightOf_cons] at hg
    have := Token.one_le_weight (mark "(")
    obtain ⟨g, rfl⟩ := Nat.exists_eq_add_one.mpr (show 0 < g by omega)
    refine .arguments (.some ?_ (hds.again hs (by omega)))
    obtain ⟨d, ds, rfl⟩ := List.exists_cons_of_ne_nil hne'
    have hd := hds.formed d List.mem_cons_self
    rcases ds with - | ⟨e, ds⟩
    · rw [listed_singleton, List.append_assoc]
      exact head_expression hd (by simp) (by simp)
    · rw [listed_cons (List.cons_ne_nil _ _), List.append_assoc]
      exact head_expression hd (by simp) (by simp)

theorem argumentsFrom_succ {ds : List Doc} (ih : Rereads n) (hl : AllLexed ts)
    (h : Ran (Reader.argumentsFrom (n + 1)) ts ds ts') :
    ListRead Reader.argumentsFrom .expression listed ds ts' ∧ ds ≠ []
      ∧ ∀ {rest}, Within False ts (listed ds ++ rest) := by
  cases h.argumentsFrom with
  | @last d _ hd =>
    have hd := ih.expression hl hd
    refine ⟨.singleton_listed hd.formed hd.lexed.tail fun hs g rest hg => ?_, by simp, fun {rest} => ?_⟩
    · exact .argumentsFrom (.last (hd.again hs (by omega) (.close (by simp)) (shut_mark (by decide))))
    · rw [listed_singleton, List.append_assoc]
      exact (hd.before (.close (by simp))).within
  | @more d ds ts₁ _ hd hds =>
    have hd := ih.expression hl hd
    obtain ⟨hds, hne, hwithin⟩ := ih.argumentsFrom hd.lexed.tail hds
    have comma {rest : List Token} : After False (mark "," :: ts₁) (mark "," :: (listed ds ++ rest)) :=
      .pass rfl (by decide) hwithin
    refine ⟨.cons_listed hd.formed hne hds fun hs g rest hg hagain => ?_, by simp, fun {rest} => ?_⟩
    · exact .argumentsFrom (.more (hd.again hs (by omega) comma (shut_mark (by decide))) hagain)
    · rw [listed_cons hne, List.append_assoc, List.cons_append]
      exact (hd.before comma).within

theorem lambdaParams_succ {ds : List Doc} (ih : Rereads n) (hl : AllLexed ts)
    (h : Ran (Reader.lambdaParams (n + 1)) ts ds ts') :
    ListRead Reader.lambdaParams .param listed ds ts' := by
  have lexed {us vs : List Token} (hl : AllLexed us)
      (h : us = mark "," :: vs ∨ us = vs ∧ us.head? ≠ some (mark ",")) : AllLexed vs := by
    rcases h with rfl | ⟨rfl, -⟩
    · exact hl.tail
    · exact hl
  cases h.lambdaParams with
  | none =>
    refine ⟨by simp, hl.tail, fun _ g rest hg => ?_⟩
    change 10 * weightOf [mark ")"] ≤ g at hg
    rw [Token.weightOf_cons] at hg
    have := Token.one_le_weight (mark ")")
    obtain ⟨g, rfl⟩ := Nat.exists_eq_add_one.mpr (show 0 < g by omega)
    exact .lambdaParams .none
  | @typed name ty ds _ ts₁ ts₂ _ _ _ hty hk hcomma hds =>
    have hty := (typesRead n).1 hl hty
    have hn : IsName name := ⟨hty.lexed.head, hk⟩
    have hds := ih.lambdaParams (lexed hty.lexed.tail hcomma) hds
    refine ⟨List.forall_mem_cons.mpr ⟨.typed hn hty.formed, hds.formed⟩, hds.lexed, fun hs g rest hg => ?_⟩
    obtain ⟨m, us, hlisted, -, hw, hnext⟩ := listed_next (param name (some ty)) ds
    rw [hlisted, Doc.tokens_typed, Token.weightOf_append, Token.weightOf_append, Token.weightOf_cons (word name),
      Token.weight_word] at hg
    rw [hlisted, Doc.tokens_typed, List.append_assoc, List.append_assoc, List.cons_append, List.cons_append,
      List.nil_append]
    obtain ⟨g, rfl⟩ := Nat.exists_eq_add_one.mpr (show 0 < g by omega)
    obtain ⟨w, vs, hvs, -, -, hhead⟩ := hty.formed.opening
    refine .lambdaParams (.typed ?_ ?_ (hty.reads ⟨by simp, by simp, by simp⟩ (by omega)) hk (hnext rest)
      (hds.again (fun d hd => hs d (List.mem_cons_of_mem _ hd)) (by omega)))
    · rw [hvs]
      simp
    · rw [hvs]
      rcases vs with - | ⟨v, vs⟩
      · rfl
      · have := hhead v rfl
        simp only [List.mem_cons, List.not_mem_nil, or_false] at this
        rcases this with rfl | rfl | rfl <;> rfl
  | @bare name ds ts₁ ts₂ _ _ hk hcomma hds =>
    have hn : IsName name := ⟨hl.head, hk⟩
    have hds := ih.lambdaParams (lexed hl.tail hcomma) hds
    refine ⟨List.forall_mem_cons.mpr ⟨.bare hn, hds.formed⟩, hds.lexed, fun hs g rest hg => ?_⟩
    obtain ⟨m, us, hlisted, hm, hw, hnext⟩ := listed_next (param name none) ds
    rw [hlisted, Doc.tokens_bare, Token.weightOf_append, Token.weightOf_cons, Token.weight_word] at hg
    rw [hlisted, Doc.tokens_bare, List.append_assoc, List.cons_append, List.cons_append, List.nil_append]
    obtain ⟨g, rfl⟩ := Nat.exists_eq_add_one.mpr (show 0 < g by omega)
    refine .lambdaParams (.bare ?_ hk (hnext rest)
      (hds.again (fun d hd => hs d (List.mem_cons_of_mem _ hd)) (by omega)))
    simp only [List.mem_cons, List.not_mem_nil, or_false] at hm
    rcases hm with rfl | rfl <;> rfl

end Rereads

end TreeTidy.Reader
