import TreeTidy.Proofs.Source.Opening
import TreeTidy.Proofs.Source.Printed
import TreeTidy.Proofs.Source.Scanning
import TreeTidy.Proofs.Source.Steps
import TreeTidy.Rules.Binding
/-!
Expressions made of operators. Printing adds no parentheses and reading groups by how tightly operators
bind; where each operand binds tightly enough for its place, the text of an expression is read as that
expression.
-/
namespace TreeTidy

theorem BinaryOp.one_le_precedence (op : BinaryOp) : 1 ≤ op.precedence := by cases op <;> decide

theorem BinaryOp.precedence_le (op : BinaryOp) : op.precedence ≤ 10 := by cases op <;> decide

namespace Doc

/-- Operators over names, numbers, texts and constants, with every operand tight enough for its place. -/
inductive WellGrouped : Doc → Prop
  | name {n : String} : IsName n → Primitive.ofKeyword? n = none → WellGrouped (plain (.nameExpr n) [] [])
  | int {text : String} : text.toList ≠ [] → (∀ c ∈ text.toList, c.isDigit = true) →
      WellGrouped (plain (.literal .int text) [] [])
  | string {text : String} : WellGrouped (plain (.literal .string text) [] [])
  | boolean {text : String} : text = "true" ∨ text = "false" →
      WellGrouped (plain (.literal .boolean text) [] [])
  | null : WellGrouped (plain (.literal .null "null") [] [])
  | paren {e : Doc} : WellGrouped e → WellGrouped (plain .paren [some e] [])
  | leading {op : UnaryOp} {e : Doc} : op = .not ∨ op = .bitNot → WellGrouped e → 12 ≤ e.kind.binding →
      WellGrouped (plain (.unary op) [some e] [])
  | binary {op : BinaryOp} {l r : Doc} : WellGrouped l → WellGrouped r →
      op.precedence + 1 ≤ l.kind.binding → op.precedence + 2 ≤ r.kind.binding →
      WellGrouped (plain (.binary op) [some l, some r] [])
  | conditional {c x y : Doc} : WellGrouped c → WellGrouped x → WellGrouped y →
      2 ≤ c.kind.binding → 1 ≤ y.kind.binding →
      WellGrouped (plain .conditional [some c, some x, some y] [])
  | assign {op : AssignOp} {l r : Doc} : WellGrouped l → WellGrouped r → 1 ≤ l.kind.binding →
      WellGrouped (plain (.assign op) [some l, some r] [])

end Doc

namespace Lookahead

variable {ts us : List Token} {depth : Nat}

theorem afterParens_angle {t : Token} {d : Int} (h : angleDepth t = some d) :
    afterParens depth (t :: ts) = afterParens depth ts := by
  cases t with
  | word => rfl
  | mark m =>
    refine afterParens_mark fun hm => ?_
    simp only [List.mem_cons, List.not_mem_nil, or_false] at hm
    rcases hm with rfl | rfl <;> cases h
  | _ => cases h

theorem afterParens_angles {k : Int} (h : afterAngles k ts = some us) :
    afterParens depth ts = afterParens depth us := by
  induction ts generalizing k with
  | nil => cases h
  | cons t ts ih =>
    cases hd : angleDepth t with
    | none =>
      rw [afterAngles_none hd] at h
      cases h
    | some d =>
      rw [afterParens_angle hd]
      rw [afterAngles_cons hd] at h
      split at h
      · cases h
        rfl
      · exact ih h

/-- There are no parentheses in a type. -/
theorem afterParens_type (h : afterType? ts = some us) : afterParens depth ts = afterParens depth us := by
  have brackets : ∀ ts, afterParens depth (afterBrackets ts) = afterParens depth ts := by
    intro ts
    induction ts using afterBrackets.induct with
    | case1 rest ih => exact ih
    | case2 ts hne => rw [afterBrackets.eq_2 ts hne]
  have names : ∀ {ts us}, afterNameTail ts = some us → afterParens depth ts = afterParens depth us := by
    intro ts us h
    induction ts using afterNameTail.induct with
    | case1 w rest hk =>
      rw [afterNameTail, if_pos hk] at h
      cases h
    | case2 w rest hk ih =>
      rw [afterNameTail, if_neg hk] at h
      exact ih h
    | case3 rest hne =>
      rw [afterNameTail] at h
      · cases h
      · exact hne
    | case4 ts h₁ h₂ =>
      rw [afterNameTail.eq_3 ts h₁ h₂] at h
      cases h
      rfl
  cases ts with
  | nil => cases h
  | cons t ts =>
    cases t with
    | word w =>
      rw [afterType_word] at h
      split at h
      · cases h
      rw [typeTail] at h
      obtain ⟨us', h₁, rfl⟩ := Option.map_eq_some_iff.mp h
      obtain ⟨vs, hn, ha⟩ := Option.bind_eq_some_iff.mp h₁
      rw [afterParens_word, names hn, brackets]
      unfold afterArgs at ha
      split at ha
      · exact afterParens_angles ha
      · cases ha
        rfl
    | _ => cases h

/-- Parentheses are a cast only if something follows that casts are made of. -/
theorem startsCast_parens {us : List Token} (hb : Token.Balanced us)
    (hm : ∀ t ∈ ts.head?, ∃ m, t = .mark m ∧ m ∉ ["(", "!", "~"])
    (hp : startsPrimitive (us ++ Token.mark ")" :: ts) = false) : startsCast (Token.inParens us ++ ts) = false := by
  have hclose : afterParens 1 (us ++ Token.mark ")" :: ts) = some ts := hb 0 _
  rw [Token.inParens, List.append_assoc, List.cons_append, List.singleton_append, startsCast]
  split
  case h_2 => rfl
  case h_1 after hty =>
    rw [afterParens_type hty] at hclose
    cases hclose
    cases ts with
    | nil => rfl
    | cons t ts =>
      obtain ⟨m, rfl, hm⟩ := hm t rfl
      have hm : (m == "(" || m == "!" || m == "~") = false := by simpa [and_assoc] using hm
      change (if m == "-" || m == "+" then _ else _) = false
      split
      · exact hp
      · exact hm

end Lookahead

namespace Token

theorem lexed_digits {text : String} (hne : text.toList ≠ [])
    (hd : ∀ c ∈ text.toList, c.isDigit = true) : (int text).Lexed := by
  have hnumber : ∀ cs : List Char, (∀ c ∈ cs, c.isDigit = true) → Lexeme.number cs = (cs, []) := by
    intro cs hcs
    induction cs with
    | nil => rfl
    | cons c cs ih =>
      have hc : CharClass.continuesNumber c = true := by
        simp [CharClass.continuesNumber, Char.isAlphanum, hcs c List.mem_cons_self]
      rw [Lexeme.number, hc, Bool.true_or, if_pos rfl, ih fun d hd => hcs d (List.mem_cons_of_mem _ hd)]
  have hno : ∀ c ∈ ['l', 'L', 'd', 'D', '.'], c ∉ text.toList := fun c hc hm => by
    have : ∀ c ∈ ['l', 'L', 'd', 'D', '.'], c.isDigit = false := by decide
    exact Bool.false_ne_true ((this c hc).symm.trans (hd c hm))
  have hlast : ∀ c ∈ ['l', 'L', 'd', 'D', '.'], (text.toList.getLast? == some c) = false := by
    intro c hc
    rw [beq_eq_false_iff_ne]
    exact fun h => hno c hc (List.mem_of_getLast? h)
  refine ⟨?_, ?_⟩
  · cases hl : text.toList with
    | nil => exact absurd hl hne
    | cons c cs =>
      rw [hl] at hd
      have hc := hd c List.mem_cons_self
      have hb : CharClass.isBlank c = false := by
        have hn : 48 ≤ c.toNat ∧ c.toNat ≤ 57 := by
          simpa [Char.isDigit, UInt32.le_iff_toNat_le] using hc
        have hspace : c ≠ ' ' := by rintro rfl; exact absurd hc (by decide)
        rw [CharClass.isBlank, CharClass.isAscii, if_pos (decide_eq_true (by omega))]
        simp only [hspace, Bool.or_eq_false_iff, Bool.and_eq_false_iff, decide_eq_false_iff_not,
          beq_eq_false_iff_ne, ne_eq, not_false_eq_true, true_and]
        omega
      rw [Lexeme.isNumber, hb, hc, hnumber cs fun d hd' => hd d (List.mem_cons_of_mem _ hd')]
      exact beq_self_eq_true _
  · rw [Lexeme.numberToken, String.ofList_toList]
    simp [hlast, hno '.' (by decide)]

end Token

namespace Doc

open Reader (Reads)
open Token (mark weightOf)

/-- What may come after an expression that binds at a level at least. -/
inductive Follows (level : Nat) : Token → Prop
  | close : Follows level (mark ")")
  | colon : Follows level (mark ":")
  | operator {op : BinaryOp} : op.precedence + 1 < level → Follows level (mark op.token)
  | choice : 2 ≤ level → Follows level (mark "?")
  | assignment {op : AssignOp} : 1 ≤ level → Follows level (mark op.token)

/-- No part of an expression that binds at a level at least goes on in the tokens. -/
def Ends (level : Nat) (ts : List Token) : Prop := ∀ t ∈ ts.head?, Follows level t

namespace Follows

variable {level : Nat} {t : Token} {m : String}

theorem mark_not_mem (h : Follows level t) :
    ∃ m, t = mark m ∧ m ∉ [".", "[", "::", "++", "--", "(", "->", "!", "~"] := by
  cases h with
  | close => exact ⟨_, rfl, by decide⟩
  | colon => exact ⟨_, rfl, by decide⟩
  | @operator op => exact ⟨_, rfl, by cases op <;> decide⟩
  | choice => exact ⟨_, rfl, by decide⟩
  | @assignment op => exact ⟨_, rfl, by cases op <;> decide⟩

theorem token_inj {op : BinaryOp} {op' : AssignOp} : op.token ≠ op'.token := by
  intro h
  have := Reader.binaryOp?_token op
  rw [h] at this
  cases op' <;> cases this

theorem operator_iff {op : BinaryOp} : Follows level (mark op.token) ↔ op.precedence + 1 < level := by
  refine ⟨fun h => ?_, .operator⟩
  generalize ht : mark op.token = t at h
  cases h with
  | close | colon | choice => exact absurd ht (by cases op <;> decide)
  | @operator op' hlt =>
    have hop := Reader.binaryOp?_token op
    rw [Token.mark.inj ht, Reader.binaryOp?_token] at hop
    cases hop
    exact hlt
  | assignment => exact absurd (Token.mark.inj ht) token_inj

theorem choice_iff : Follows level (mark "?") ↔ 2 ≤ level := by
  refine ⟨fun h => ?_, .choice⟩
  generalize ht : mark "?" = t at h
  cases h with
  | close | colon => exact absurd ht (by decide)
  | choice h => exact h
  | @operator op | @assignment op => exact absurd ht (by cases op <;> decide)

theorem assignment_iff {op : AssignOp} : Follows level (mark op.token) ↔ 1 ≤ level := by
  refine ⟨fun h => ?_, .assignment⟩
  generalize ht : mark op.token = t at h
  cases h with
  | close | colon | choice => exact absurd ht (by cases op <;> decide)
  | operator => exact absurd (Token.mark.inj ht).symm token_inj
  | assignment h => exact h

theorem mono {level' : Nat} (h : Follows level t) (hl : level ≤ level') : Follows level' t := by
  cases h with
  | close => exact .close
  | colon => exact .colon
  | operator h => exact .operator (by omega)
  | choice h => exact .choice (by omega)
  | assignment h => exact .assignment (by omega)

end Follows

namespace Ends

variable {level : Nat} {ts : List Token} {t : Token}

theorem cons (h : Follows level t) : Ends level (t :: ts) := by
  rintro _ ⟨⟩
  exact h

theorem mono {level' : Nat} (h : Ends level ts) (hl : level ≤ level') : Ends level' ts :=
  fun t ht => (h t ht).mono hl

/-- Nothing but an operand goes on with an operand. -/
theorem tight (h : Ends level ts) : Ends 12 ts := fun t ht => by
  cases h t ht with
  | close => exact .close
  | colon => exact .colon
  | @operator op => exact .operator (by have := op.precedence_le; omega)
  | choice => exact .choice (by decide)
  | assignment => exact .assignment (by decide)

theorem head_ne (h : Ends level ts) {m : String}
    (hm : m ∈ [".", "[", "::", "++", "--", "(", "->", "!", "~"]) : ts.head? ≠ some (mark m) := by
  intro ht
  obtain ⟨_, ⟨⟩, hne⟩ := (h _ ht).mark_not_mem
  exact hne hm

theorem head_ne_word (h : Ends level ts) (w : String) : ts.head? ≠ some (.word w) := by
  intro ht
  obtain ⟨_, ⟨⟩, _⟩ := (h _ ht).mark_not_mem

end Ends

namespace WellGrouped

variable {d : Doc} {ts : List Token}

theorem formed (h : WellGrouped d) : Formed .operation d ∧ (12 ≤ d.kind.binding → Formed .operand d) := by
  have suffixed : ∀ {d : Doc}, Formed .suffixed d →
      Formed .operation d ∧ (12 ≤ d.kind.binding → Formed .operand d) := fun h =>
    ⟨.ofOperand (.ofSuffixed h), fun _ => .ofSuffixed h⟩
  induction h with
  | name hn _ => exact suffixed (.nameExpr hn)
  | @int text hne hd => exact suffixed (.literal (t := .int text) (Token.lexed_digits hne hd) rfl)
  | @string text => exact suffixed (.literal (t := .string text) trivial rfl)
  | @boolean text ht =>
    rcases ht with rfl | rfl
    · exact suffixed (.literal (t := .word "true") (by decide) rfl)
    · exact suffixed (.literal (t := .word "false") (by decide) rfl)
  | null => exact suffixed (.literal (t := .word "null") (by decide) rfl)
  | paren _ ih => exact suffixed (.paren (.ofOperation ih.1))
  | @leading op e hop _ hb ih =>
    have : Formed .operand (plain (.unary op) [some e] []) :=
      .leading (by rcases hop with rfl | rfl <;> rfl) (ih.2 hb)
    exact ⟨.ofOperand this, fun _ => this⟩
  | @binary op l r _ _ _ _ ihl ihr =>
    have := op.precedence_le
    exact ⟨.binary ihl.1 ihr.1, fun h : 12 ≤ op.precedence + 1 => absurd h (by omega)⟩
  | conditional _ _ _ _ _ ihc ihx ihy =>
    exact ⟨.conditional ihc.1 (.ofOperation ihx.1) (.ofOperation ihy.1),
      fun h : 12 ≤ 1 => absurd h (by decide)⟩
  | assign _ _ _ ihl ihr =>
    exact ⟨.assign ihl.1 (.ofOperation ihr.1), fun h : 12 ≤ 0 => absurd h (by decide)⟩

theorem separate (h : WellGrouped d) : d.All Separate := by
  have leaf : ∀ {kind : NodeKind}, (plain kind [] []).Separate → (plain kind [] []).All Separate :=
    fun h => all_node h (by simp) (by simp)
  induction h with
  | name => exact leaf trivial
  | int => exact leaf trivial
  | string => exact leaf trivial
  | boolean => exact leaf trivial
  | null => exact leaf trivial
  | paren _ ih => exact all_node trivial (by simpa using ih) (by simp)
  | leading hop _ _ ih =>
    refine all_node ?_ (by simpa using ih) (by simp)
    rcases hop with rfl | rfl <;> exact fun _ _ _ _ => rfl
  | binary _ _ _ _ ihl ihr => exact all_node trivial (by simp [ihl, ihr]) (by simp)
  | conditional _ _ _ _ _ ihc ihx ihy => exact all_node trivial (by simp [ihc, ihx, ihy]) (by simp)
  | assign _ _ _ ihl ihr => exact all_node trivial (by simp [ihl, ihr]) (by simp)

/-- No well grouped expression starts with the name of a primitive type. -/
theorem startsPrimitive (h : WellGrouped d) (ts : List Token) :
    Lookahead.startsPrimitive (d.tokens ++ ts) = false := by
  induction h generalizing ts with
  | name _ hp => exact Option.isSome_eq_false_iff.mpr (by simpa using hp)
  | int | string | null => rfl
  | boolean ht => rcases ht with rfl | rfl <;> rfl
  | paren => rfl
  | leading hop => rcases hop with rfl | rfl <;> rfl
  | binary _ _ _ _ ih _ | assign _ _ _ ih _ =>
    simp only [tokens_binary, tokens_assign, List.append_assoc]
    exact ih _
  | conditional _ _ _ _ _ ih _ _ =>
    rw [tokens_conditional, List.append_assoc]
    exact ih _

/-- Read as an operand. -/
def AsOperand (d : Doc) : Prop := ∀ g ts, 10 * weightOf d.tokens ≤ g → Ends 12 ts →
  Reads (Reader.unary g) (d.tokens ++ ts) d ts

/-- Read in front of operators, whatever is made of it and them. -/
def AsOperation (d : Doc) : Prop := ∀ least, 1 ≤ least → least + 1 ≤ d.kind.binding →
  ∀ n ts d' ts', Ends (d.kind.binding + 1) ts →
    (∀ g ≥ n, Reads (Reader.operatorsAfter g least d) ts d' ts') →
    ∀ g ≥ n + 10 * weightOf d.tokens + 1, Reads (Reader.operation g least) (d.tokens ++ ts) d' ts'

/-- Read as a choice, or as an operation that is none. -/
def AsChoice (d : Doc) : Prop := ∀ g ts, 10 * weightOf d.tokens + 3 ≤ g → Ends 1 ts →
  Reads (Reader.conditional g) (d.tokens ++ ts) d ts

def AsExpression (d : Doc) : Prop := ∀ g ts, 10 * weightOf d.tokens + 4 ≤ g → Ends 0 ts →
  Reads (Reader.expression g) (d.tokens ++ ts) d ts

/-- An expression is read from its tokens as far as it binds tightly enough. -/
structure ReadBack (d : Doc) : Prop where
  operand : 12 ≤ d.kind.binding → AsOperand d
  operation : AsOperation d
  choice : 1 ≤ d.kind.binding → AsChoice d
  expression : AsExpression d

theorem reads_stop {least g : Nat} (h : Ends (least + 1) ts) (hg : 1 ≤ g) :
    Reads (Reader.operatorsAfter g least d) ts d ts := by
  obtain ⟨g, rfl⟩ := Nat.exists_eq_add_of_le' hg
  refine .operatorsAfter (.stop (fun _ => h.head_ne_word _) fun op hop ht => ?_)
  have := Follows.operator_iff.mp (h _ ht)
  omega

theorem reads_no_lambda {g : Nat} (hd : WellGrouped d) (h : Ends 1 ts) (hg : 1 ≤ g) :
    Reads (Reader.lambda? g) (d.tokens ++ ts) none (d.tokens ++ ts) := by
  obtain ⟨g, rfl⟩ := Nat.exists_eq_add_of_le' hg
  exact .lambda? (.none (hd.formed.1.opening ts (h.head_ne (by decide)) (h.head_ne (by decide))).2)

/-- What binds at least as tightly as a binary operator is a whole if no operator comes after it. -/
theorem AsOperation.whole (h : AsOperation d) {least g : Nat} (hl : 1 ≤ least)
    (hb : least + 1 ≤ d.kind.binding) (he : Ends (least + 1) ts) (hg : 10 * weightOf d.tokens + 2 ≤ g) :
    Reads (Reader.operation g least) (d.tokens ++ ts) d ts :=
  h least hl hb 1 ts d ts (he.mono (by omega)) (fun _ hg => reads_stop he hg) g (by omega)

theorem AsChoice.expression (h : AsChoice d) (hd : WellGrouped d) : AsExpression d := by
  intro g ts hg he
  obtain ⟨g, rfl⟩ := Nat.exists_eq_add_of_le' (show 1 ≤ g by omega)
  have he₁ := he.mono (Nat.zero_le 1)
  refine .expression (.plain (reads_no_lambda hd he₁ (by omega)) (h g ts (by omega) he₁) fun op ht => ?_)
  exact absurd (Follows.assignment_iff.mp (he _ ht)) (by decide)

theorem AsOperation.choice (h : AsOperation d) (hb : 2 ≤ d.kind.binding) : AsChoice d := by
  intro g ts hg he
  obtain ⟨g, rfl⟩ := Nat.exists_eq_add_of_le' (show 1 ≤ g by omega)
  refine .conditional (.plain (h.whole (Nat.le_refl 1) hb (he.mono (by decide)) (by omega)) fun ht => ?_)
  exact absurd (Follows.choice_iff.mp (he _ ht)) (by decide)

theorem AsOperand.operation (h : AsOperand d) : AsOperation d := by
  intro least _ _ n ts d' ts' he hr g hg
  obtain ⟨g, rfl⟩ := Nat.exists_eq_add_of_le' (show 1 ≤ g by omega)
  exact .operation (h g ts (by omega) he.tight) (hr g (by omega))

namespace ReadBack

theorem of_operation (hd : WellGrouped d) (hb : 2 ≤ d.kind.binding)
    (ho : 12 ≤ d.kind.binding → AsOperand d) (h : AsOperation d) : ReadBack d :=
  ⟨ho, h, fun _ => h.choice hb, (h.choice hb).expression hd⟩

theorem of_operand (hd : WellGrouped d) (hb : 12 ≤ d.kind.binding) (h : AsOperand d) : ReadBack d :=
  .of_operation hd (by omega) (fun _ => h) h.operation

/-- What is read as an operand without operators in front of it. -/
theorem of_primary (hd : WellGrouped d) (hb : d.kind.binding = 13)
    (h : ∀ g ts, 10 * weightOf d.tokens ≤ g + 1 → Ends 12 ts →
      (d.tokens ++ ts).head?.bind Reader.leadingOp? = none ∧ Lookahead.startsCast (d.tokens ++ ts) = false
        ∧ Reads (Reader.primary g) (d.tokens ++ ts) d ts) : ReadBack d := by
  refine .of_operand hd (by omega) fun g ts hg he => ?_
  obtain ⟨_, _, ht, _⟩ := (hd.formed.2 (by omega)).leads
  have := Token.one_le_weightOf ht
  obtain ⟨g, rfl⟩ := Nat.exists_eq_add_of_le' (show 1 ≤ g by omega)
  obtain ⟨ho, hc, hr⟩ := h g ts hg he
  obtain ⟨g, rfl⟩ := Nat.exists_eq_add_of_le' (show 1 ≤ g by omega)
  refine .unary (.operand ho hc hr (.suffixesAfter (.stop fun m hm => he.head_ne ?_)))
  revert m
  decide

end ReadBack

theorem readBack (h : WellGrouped d) : ReadBack d := by
  have literal : ∀ {t : Token} {kind : NodeKind}, t.Lexed → Reader.literal? t = some kind →
      WellGrouped (plain kind [] []) → ReadBack (plain kind [] []) := by
    intro t kind ht hk hd
    have hb : kind.binding = 13 := by
      unfold Reader.literal? at hk
      split at hk <;> cases hk <;> rfl
    refine .of_primary hd hb fun g ts hg _ => ?_
    rw [(literal_written hk).1] at hg ⊢
    have := Token.one_le_weight t
    rw [Token.weightOf_cons] at hg
    obtain ⟨g, rfl⟩ := Nat.exists_eq_add_of_le' (show 1 ≤ g by omega)
    refine ⟨?_, ?_, .primary (.literal hk)⟩
    · unfold Reader.literal? at hk
      split at hk <;> cases hk <;> rfl
    · unfold Reader.literal? at hk
      split at hk <;> cases hk <;> rfl
  have hd := h
  induction h with
  | @name n hn hp =>
    refine .of_primary hd rfl fun g ts hg he => ⟨rfl, rfl, ?_⟩
    obtain ⟨g, rfl⟩ := Nat.exists_eq_add_of_le' (show 1 ≤ g by change 10 ≤ g + 1 at hg; omega)
    have hkind : Reader.nameKind n ts.head? = .nameExpr n := by
      refine if_neg fun h => ?_
      simp only [Bool.and_eq_true, Bool.or_eq_true, beq_iff_eq] at h
      exact h.2.elim (he.head_ne (by decide)) (he.head_ne (by decide))
    have := Reads.primary (.name (n := g) hn.2 (he.head_ne (m := "(") (by decide)))
    rwa [hkind] at this
  | @int text hne hdig => exact literal (t := .int text) (Token.lexed_digits hne hdig) rfl hd
  | @string text => exact literal (t := .string text) trivial rfl hd
  | @boolean text ht =>
    rcases ht with rfl | rfl
    · exact literal (t := .word "true") (by decide) rfl hd
    · exact literal (t := .word "false") (by decide) rfl hd
  | null => exact literal (t := .word "null") (by decide) rfl hd
  | @paren e he ih =>
    refine .of_primary hd rfl fun g ts hg hend => ?_
    rw [tokens_paren] at hg ⊢
    refine ⟨rfl, ?_, ?_⟩
    · refine Lookahead.startsCast_parens (e.balanced 0) (fun t ht => ?_) (he.startsPrimitive _)
      obtain ⟨m, hm, hne⟩ := (hend t ht).mark_not_mem
      have hsub : ∀ m ∈ ["(", "!", "~"], m ∈ [".", "[", "::", "++", "--", "(", "->", "!", "~"] := by decide
      exact ⟨m, hm, fun h => hne (hsub m h)⟩
    · have hw : weightOf (Token.inParens e.tokens) = weightOf e.tokens + 2 := by
        simp only [Token.inParens, List.cons_append, Token.weightOf_cons, Token.weightOf_append,
          Token.weightOf_nil]
        change 1 + (_ + 1) = _
        omega
      obtain ⟨g, rfl⟩ := Nat.exists_eq_add_of_le' (show 2 ≤ g by omega)
      rw [Token.inParens, List.append_assoc]
      exact .primary (.paren (.inParens ((ih he).expression g _ (by omega) (.cons .close))))
  | @leading op e hop he hb ih =>
    have hpost : op.isPostfix = false := by rcases hop with rfl | rfl <;> rfl
    have hbind : (plain (.unary op) [some e] []).kind.binding = 12 := if_neg (Bool.eq_false_iff.mp hpost)
    refine .of_operand hd hbind.ge fun g ts hg hend => ?_
    rw [tokens_leading hpost] at hg ⊢
    rw [Token.weightOf_cons] at hg
    have := Token.one_le_weight (mark op.token)
    obtain ⟨g, rfl⟩ := Nat.exists_eq_add_of_le' (show 1 ≤ g by omega)
    exact .unary (.leading hpost ((ih he).operand hb g ts (by omega) hend))
  | @binary op l r hl hr hbl hbr ihl ihr =>
    have hpos := op.one_le_precedence
    have hle := op.precedence_le
    have hw := Token.one_le_weight (mark op.token)
    refine .of_operation hd (Nat.succ_le_succ hpos) (fun h : 12 ≤ op.precedence + 1 => absurd h (by omega))
      fun least hone hleast n ts d' ts' hend hrest g hg => ?_
    change least + 1 ≤ op.precedence + 1 at hleast
    rw [tokens_binary, Token.weightOf_append, Token.weightOf_cons] at hg
    rw [tokens_binary, List.append_assoc]
    refine (ihl hl).operation least hone (by omega) (n + 10 * weightOf r.tokens + 3) _ d' ts'
      (.cons (.operator (by omega))) (fun g hg => ?_) g (by omega)
    obtain ⟨g, rfl⟩ := Nat.exists_eq_add_of_le' (show 1 ≤ g by omega)
    exact .operatorsAfter (.binary (by omega) ((ihr hr).operation.whole (by omega) hbr hend (by omega))
      (hrest g (by omega)))
  | @conditional c x y hc hx hy hbc hby ihc ihx ihy =>
    have hchoice : AsChoice (plain .conditional [some c, some x, some y] []) := by
      intro g ts hg hend
      have h₁ := Token.one_le_weight (mark "?")
      have h₂ := Token.one_le_weight (mark ":")
      rw [tokens_conditional] at hg ⊢
      simp only [Token.weightOf_append, Token.weightOf_cons] at hg
      obtain ⟨g, rfl⟩ := Nat.exists_eq_add_of_le' (show 1 ≤ g by omega)
      simp only [List.append_assoc, List.cons_append]
      exact .conditional (.conditional
        ((ihc hc).operation.whole (Nat.le_refl 1) hbc (.cons (.choice (Nat.le_refl 2))) (by omega))
        ((ihx hx).expression g _ (by omega) (.cons .colon))
        (reads_no_lambda hy hend (by omega)) ((ihy hy).choice hby g ts (by omega) hend))
    exact ⟨fun h : 12 ≤ 1 => absurd h (by decide),
      fun least _ (h : least + 1 ≤ 1) => absurd h (by omega), fun _ => hchoice, hchoice.expression hd⟩
  | @assign op l r hl hr hb ihl ihr =>
    refine ⟨fun h : 12 ≤ 0 => absurd h (by decide),
      fun least _ (h : least + 1 ≤ 0) => absurd h (by omega), fun h : 1 ≤ 0 => absurd h (by decide), fun g ts hg hend => ?_⟩
    have hw := Token.one_le_weight (mark op.token)
    rw [tokens_assign, Token.weightOf_append, Token.weightOf_cons] at hg
    obtain ⟨g, rfl⟩ := Nat.exists_eq_add_of_le' (show 1 ≤ g by omega)
    rw [tokens_assign, List.append_assoc]
    have hassign : Ends 1 (mark op.token :: (r.tokens ++ ts)) := .cons (.assignment (Nat.le_refl 1))
    exact .expression (.assign (reads_no_lambda hl hassign (by omega))
      ((ihl hl).choice hb g _ (by omega) hassign) ((ihr hr).expression g ts (by omega) hend))

end WellGrouped

/-- The text of a well grouped expression is read as the expression. -/
theorem readExpression_print {d : Doc} (h : WellGrouped d) : readExpression d.print = .ok d := by
  refine Reader.readAll_of_reads (h.formed.1.ofText_print h.separate) ?_
  have hr := h.readBack.expression (Reader.fuelFor (.ofTokens d.tokens)) []
    (by change _ ≤ 10 * weightOf d.tokens + 10; omega) nofun
  rwa [List.append_nil] at hr

/-- The differences are grouped to the left, and the parentheses are no cast of what comes after them. -/
theorem readExpression_print_difference :
    ∃ d, d.WellGrouped ∧ d.print = "(a) - b - 2 < n ? x = !c : \"say \\\"hi\\\"\"" ∧
      readExpression d.print = .ok d := by
  have named : ∀ n ∈ ["a", "b", "c", "n", "x"], (plain (.nameExpr n) [] []).WellGrouped := fun n hn =>
    have h : ∀ n ∈ ["a", "b", "c", "n", "x"], IsName n ∧ Primitive.ofKeyword? n = none := by decide
    .name (h n hn).1 (h n hn).2
  let name (n : String) : Doc := plain (.nameExpr n) [] []
  let sub (l r : Doc) : Doc := plain (.binary .sub) [some l, some r] []
  let two : Doc := plain (.literal .int "2") [] []
  let less : Doc := plain (.binary .lt)
    [some (sub (sub (plain .paren [some (name "a")] []) (name "b")) two), some (name "n")] []
  let assigned : Doc := plain (.assign .assign)
    [some (name "x"), some (plain (.unary .not) [some (name "c")] [])] []
  let text : Doc := plain (.literal .string "say \"hi\"") [] []
  have hless : less.WellGrouped := .binary
    (.binary (.binary (.paren (named "a" (by decide))) (named "b" (by decide)) (by decide) (by decide))
      (.int (by decide) (by decide)) (by decide) (by decide))
    (named "n" (by decide)) (by decide) (by decide)
  have hassigned : assigned.WellGrouped :=
    .assign (named "x" (by decide)) (.leading (.inl rfl) (named "c" (by decide)) (by decide)) (by decide)
  have h : (plain .conditional [some less, some assigned, some text] []).WellGrouped :=
    .conditional hless hassigned .string (by decide) (by decide)
  exact ⟨_, h, by decide, readExpression_print h⟩

end Doc

end TreeTidy
