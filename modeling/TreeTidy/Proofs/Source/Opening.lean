import TreeTidy.Proofs.Document.Parts
import TreeTidy.Proofs.Source.Formed
/-!
How the tokens of a document begin, as far as it decides what is read: parentheses are closed where they
belong, so only a lambda is taken for one, and nothing but a statement with a keyword starts like it.
-/
namespace TreeTidy

open Lookahead (afterParens lambdaForm?)

namespace Lookahead

variable {t : Token} {ts : List Token} {depth : Nat}

@[simp] theorem afterParens_word {w : String} :
    afterParens depth (.word w :: ts) = afterParens depth ts := rfl

@[simp] theorem afterParens_mark {m : String} (hm : m ∉ ["(", ")"]) :
    afterParens depth (.mark m :: ts) = afterParens depth ts := by
  rw [afterParens]
  · rintro ⟨⟩; exact hm (by decide)
  · rintro ⟨⟩; exact hm (by decide)

@[simp] theorem afterParens_open :
    afterParens depth (.mark "(" :: ts) = afterParens (depth + 1) ts := rfl

@[simp] theorem afterParens_close :
    afterParens (depth + 2) (.mark ")" :: ts) = afterParens (depth + 1) ts := rfl

end Lookahead

namespace Token

/-- Parentheses that are opened in the tokens are closed there. -/
def Balanced (ts : List Token) : Prop :=
  ∀ depth rest, afterParens (depth + 1) (ts ++ rest) = afterParens (depth + 1) rest

namespace Balanced

variable {ts us : List Token}

theorem nil : Balanced [] := fun _ _ => rfl

theorem append (h : Balanced ts) (h' : Balanced us) : Balanced (ts ++ us) := fun depth rest => by
  rw [List.append_assoc, h, h']

theorem mark {m : String} (hm : m ∉ ["(", ")"]) (h : Balanced ts) : Balanced (mark m :: ts) :=
  fun depth rest => by rw [List.cons_append, Lookahead.afterParens_mark hm, h]

theorem closers (n : Nat) : Balanced (closers n) := by
  induction n using closers.induct with
  | case1 => exact nil
  | case2 | case3 => exact mark (by decide) nil
  | case4 n ih => exact mark (by decide) ih

theorem flatten {items : List (List Token)} (h : ∀ ts ∈ items, Balanced ts) :
    Balanced items.flatten := by
  induction items with
  | nil => exact nil
  | cons ts items ih =>
    exact (h ts List.mem_cons_self).append (ih fun us hus => h us (List.mem_cons_of_mem _ hus))

theorem commas {items : List (List Token)} (h : ∀ ts ∈ items, Balanced ts) :
    Balanced (commas items) := by
  induction items with
  | nil => exact nil
  | cons ts items ih =>
    have ih := ih fun us hus => h us (List.mem_cons_of_mem _ hus)
    cases items with
    | nil =>
      rw [commas_singleton]
      exact h ts List.mem_cons_self
    | cons us items =>
      rw [commas_cons_cons]
      exact (h ts List.mem_cons_self).append (mark (by decide) ih)

theorem path (path : String) : Balanced (ofPath path) := by
  rw [ofPath]
  generalize (path.toList.splitOn '.').map String.ofList = parts
  cases parts with
  | nil => exact nil
  | cons first parts =>
    rw [ofParts_cons]
    change Balanced (pointed parts)
    induction parts with
    | nil => exact nil
    | cons n parts ih => exact mark (by decide) ih

theorem getD {slot : Option (List Token)} (h : ∀ ts ∈ slot, Balanced ts) (hts : Balanced ts) :
    Balanced (slot.getD ts) := by
  cases slot with
  | none => exact hts
  | some us => exact h us rfl

theorem wrapped {before after : List Token} {slot : Option (List Token)} (hb : Balanced before)
    (h : ∀ ts ∈ slot, Balanced ts) (ha : Balanced after) : Balanced (wrapped before slot after) := by
  cases slot with
  | none => exact nil
  | some us => exact (hb.append (h us rfl)).append ha

theorem ofNode {slots : List (Option (List Token))} {items : List (List Token)} {args : List Token}
    (hs : ∀ ts, some ts ∈ slots → Balanced ts) (hi : ∀ ts ∈ items, Balanced ts) (ha : Balanced args)
    (closing : Nat) (bare : Bool) (kind : NodeKind) :
    Balanced (ofNode closing bare kind slots items args) := by
  have child (i : Nat) : ∀ ts ∈ slots[i]?.join, Balanced ts := fun ts hts =>
    hs ts (List.mem_of_getElem? (Option.join_eq_some_iff.mp hts))
  have slot (i : Nat) : Balanced (slots[i]?.join.getD []) := getD (child i) nil
  have body : Balanced (slots[2]?.join.getD [.mark ";"]) := getD (child 2) (mark (by decide) nil)
  have value (i : Nat) : Balanced (Token.wrapped [.mark "="] slots[i]?.join []) :=
    wrapped (mark (by decide) nil) (child i) nil
  have otherwise : Balanced (Token.wrapped [.word "else"] slots[2]?.join []) :=
    wrapped nil (child 2) nil
  have receiver : Balanced (Token.wrapped [] slots[0]?.join [.mark "."]) :=
    wrapped nil (child 0) (mark (by decide) nil)
  have package (path : Option String) :
      Balanced (Token.wrapped [.word "package"] (path.map ofPath) [.mark ";"]) := by
    refine wrapped nil (fun ts hts => ?_) (mark (by decide) nil)
    obtain ⟨path, _, rfl⟩ := Option.map_eq_some_iff.mp hts
    exact .path path
  have list := flatten hi
  have parens := commas hi
  have path := Balanced.path
  have closers := Balanced.closers
  unfold Balanced at *
  intro depth rest
  unfold Token.ofNode
  cases kind with
  | importDecl p isStatic wildcard => cases isStatic <;> cases wildcard <;> simp [path]
  | classType n diamond => cases diamond <;> cases items <;> simp [path, closers, ha]
  | literal sort text => cases sort <;> rfl
  | unary op => cases op <;> simp [UnaryOp.isPostfix, UnaryOp.token, slot]
  | binary op => cases op <;> simp [BinaryOp.token, slot]
  | assign op => cases op <;> simp [AssignOp.token, slot]
  | lambda parenthesized => cases bare <;> cases parenthesized <;> simp [Token.inParens, parens, slot]
  | _ =>
    simp [Token.inParens, Token.inBraces, slot, body, value, otherwise, receiver, package, list,
      parens, closers]

end Balanced

/-- Whether an expression or a type can start with a token. -/
def opensSimple : Token → Bool
  | mark m => ["(", "!", "~", "-", "+", "++", "--"].contains m
  | word w => !Reader.isKeyword w || ["true", "false", "null", "this", "new", "var"].contains w
  | _ => true

end Token

/-- Whether what starts is an expression or a type, and no call of a constructor. -/
def StartsSimple : List Token → Prop
  | t :: after => t.opensSimple = true ∧ (t = .word "this" → after.head? ≠ some (.mark "("))
  | [] => False

theorem StartsSimple.of_ne {t : Token} {ts : List Token} (h : t.opensSimple = true) (ht : t ≠ .word "this") :
    StartsSimple (t :: ts) :=
  ⟨h, fun h => absurd h ht⟩

namespace Doc

open Token (Balanced inParens)

theorem balanced (d : Doc) : ∀ closing, Balanced (d.tokensThen closing) := by
  induction d using Doc.induction with
  | node kind span ty slots list hs hl =>
    intro closing
    rw [tokensThen_node]
    refine .ofNode (fun ts hts => ?_) (fun ts hts => ?_) ?_ _ _ _
    · obtain ⟨o, ho, h⟩ := List.mem_map.mp hts
      obtain ⟨c, rfl, rfl⟩ := Option.map_eq_some_iff.mp h
      exact hs c ho 0
    · obtain ⟨c, hc, rfl⟩ := List.mem_map.mp hts
      exact hl c hc 0
    · clear hs
      generalize closing + 1 = closing
      induction list with
      | nil => exact .nil
      | cons c list ih =>
        have hc := hl c List.mem_cons_self
        have ih := ih fun b hb => hl b (List.mem_cons_of_mem _ hb)
        rw [tokensOfArgs]
        split
        · exact hc closing
        · exact (hc 0).append (.mark (by decide) ih)

theorem lambdaForm_word {w : String} {ts : List Token} (h : ts.head? ≠ some (.mark "->")) :
    lambdaForm? (.word w :: ts) = none := by
  unfold lambdaForm?
  split
  case h_1 heq => cases heq; exact absurd rfl h
  case h_2 heq => cases heq
  case h_3 => rfl

theorem afterParens_balanced {ts us : List Token} (hb : Balanced ts) :
    afterParens 1 ((ts ++ [Token.mark ")"]) ++ us) = some us := by
  rw [List.append_assoc, hb 0]
  rfl

theorem lambdaForm_parens {ts us : List Token} (hb : Balanced ts) (h : us.head? ≠ some (.mark "->")) :
    lambdaForm? (inParens ts ++ us) = none := by
  rw [inParens, List.cons_append, List.cons_append, lambdaForm?, afterParens_balanced hb]
  split
  case h_1 heq => cases heq; exact absurd rfl h
  case h_2 => rfl

theorem lambdaForm_arrow {ts us : List Token} (hb : Balanced ts) :
    lambdaForm? (inParens ts ++ Token.mark "->" :: us) = some .parenthesized := by
  rw [inParens, List.cons_append, List.cons_append, lambdaForm?, afterParens_balanced hb]
  rfl

/-- A name in front is that of no statement. -/
theorem opensSimple_of_name {n : String} (h : Reader.isKeyword n = false) :
    (Token.word n).opensSimple = true := by
  rw [Token.opensSimple, h]
  rfl

theorem name_ne_this {n : String} (h : Reader.isKeyword n = false) : n ≠ "this" := by
  rintro rfl
  exact absurd h (by decide)

theorem opening_path {path : String} (more : List Token) (hp : IsPath path)
    (hm : ∀ t ∈ more.head?, t ∈ [.mark ".", .mark "<", .mark "["]) :
    ∃ w us, Token.ofPath path ++ more = .word w :: us ∧ (Token.word w).opensSimple = true ∧ w ≠ "this"
      ∧ ∀ t ∈ us.head?, t ∈ [.mark ".", .mark "<", .mark "["] := by
  obtain ⟨first, parts, hn, rfl⟩ := hp
  have hk := (hn first List.mem_cons_self).2
  rw [ofPath_intercalate hn, Token.ofParts_cons]
  refine ⟨first, _, rfl, opensSimple_of_name hk, name_ne_this hk, ?_⟩
  cases parts with
  | nil => exact hm
  | cons n parts =>
    rintro _ ⟨⟩
    decide

theorem opening_word {w : String} {ts : List Token} (hw : (Token.word w).opensSimple = true)
    (ht : w = "this" → ts.head? ≠ some (.mark "(")) (h : ts.head? ≠ some (.mark "->")) :
    StartsSimple (.word w :: ts) ∧ lambdaForm? (.word w :: ts) = none :=
  ⟨⟨hw, fun h => ht (Token.word.inj h)⟩, lambdaForm_word h⟩

/-- No lambda starts where an expression does that is none, whatever comes after it. -/
theorem Formed.opening {form : Form} {d : Doc} (h : Formed form d) :
    match form with
    | .type => ∃ w us, d.tokens = .word w :: us ∧ (Token.word w).opensSimple = true ∧ w ≠ "this"
        ∧ ∀ t ∈ us.head?, t ∈ [.mark ".", .mark "<", .mark "["]
    | .suffixed | .operand | .operation => ∀ rest : List Token, rest.head? ≠ some (.mark "->") →
        rest.head? ≠ some (.mark "(") →
        StartsSimple (d.tokens ++ rest) ∧ lambdaForm? (d.tokens ++ rest) = none
    | _ => True := by
  induction h with
  | @primitiveType p => exact ⟨_, [], rfl, by cases p <;> decide, by cases p <;> decide, by simp⟩
  | varType => exact ⟨_, [], rfl, by decide, by decide, by simp⟩
  | @classType path args hp _ _ =>
    cases args with
    | nil => exact opening_path [] hp (by simp)
    | cons a args => exact opening_path (_ :: _) hp (by simp)
  | diamond hp => exact opening_path (_ :: _) hp (by simp)
  | arrayType _ ih =>
    obtain ⟨w, us, h, hw, ht, hus⟩ := ih
    refine ⟨w, us ++ [Token.mark "[", Token.mark "]"], congrArg (· ++ _) h, hw, ht, ?_⟩
    cases us with
    | nil => simp
    | cons u us => exact hus
  | @literal t kind ht hk =>
    intro rest hr hr'
    rw [(literal_written hk).1]
    unfold Reader.literal? at hk
    split at hk <;> cases hk <;>
      first
      | exact ⟨.of_ne rfl (by simp), rfl⟩
      | exact opening_word (by decide) (fun _ => hr') hr
  | nameExpr hn =>
    exact fun rest hr hr' => opening_word (opensSimple_of_name hn.2) (fun _ => hr') hr
  | typeName hn =>
    exact fun rest hr hr' => opening_word (opensSimple_of_name hn.2) (fun _ => hr') hr
  | @paren e _ _ =>
    intro rest hr hr'
    exact ⟨.of_ne rfl (by simp), lambdaForm_parens (e.balanced 0) hr⟩
  | newObject hty _ _ _ =>
    intro rest hr hr'
    obtain ⟨w, h⟩ := hty.leads
    obtain ⟨us, h⟩ := h 0
    rw [tokens_newObject, tokens, h]
    exact opening_word (by decide) (fun h => absurd h (by decide)) (by simp)
  | call hn _ _ =>
    intro rest hr hr'
    rw [tokens_call]
    exact opening_word (opensSimple_of_name hn.2) (fun h => absurd h (name_ne_this hn.2))
      (by simp [inParens])
  | callOn _ _ _ ih | field _ _ ih | index _ _ ih | methodRef _ _ ih =>
    intro rest _ _
    simp only [tokens_callOn, tokens_field, tokens_index, tokens_methodRef, List.append_assoc,
      List.cons_append]
    exact ih _ (by simp) (by simp)
  | @trailing op d hop _ ih =>
    intro rest _ _
    rw [tokens_trailing hop, List.append_assoc]
    exact ih _ (by cases op <;> simp [UnaryOp.token]) (by cases op <;> simp [UnaryOp.token])
  | ofSuffixed _ ih => exact ih
  | @leading op d hop _ ih =>
    intro rest _ _
    rw [tokens_leading hop]
    cases op <;> exact ⟨.of_ne rfl (by simp), rfl⟩
  | @cast ty d _ hd _ _ =>
    intro rest hr _
    obtain ⟨t, ts, h, ho⟩ := hd.leads
    rw [tokens_cast, List.append_assoc, h]
    refine ⟨.of_ne rfl (by simp), lambdaForm_parens (ty.balanced 0) ?_⟩
    rintro ⟨⟩
    cases ho
  | ofOperand _ ih => exact ih
  | @binary op l r _ _ ih _ =>
    intro rest _ _
    rw [tokens_binary, List.append_assoc]
    exact ih _ (by cases op <;> simp [BinaryOp.token]) (by cases op <;> simp [BinaryOp.token])
  | @assign op l r _ _ ih _ =>
    intro rest _ _
    rw [tokens_assign, List.append_assoc]
    exact ih _ (by cases op <;> simp [AssignOp.token]) (by cases op <;> simp [AssignOp.token])
  | instanceOf _ _ ih _ | conditional _ _ _ ih _ _ =>
    intro rest _ _
    simp only [tokens_instanceOf, tokens_conditional, List.append_assoc, List.cons_append]
    exact ih _ (by simp) (by simp)
  | _ => trivial

theorem Formed.opening_expression {d : Doc} (h : Formed .expression d) {rest : List Token}
    (hr : rest.head? ≠ some (.mark "->")) (hr' : rest.head? ≠ some (.mark "(")) :
    StartsSimple (d.tokens ++ rest) := by
  cases h with
  | ofOperation h => exact (h.opening rest hr hr').1
  | @lambda parenthesized ps b hps hsingle _ =>
    cases parenthesized with
    | true =>
      rw [tokens_lambda]
      exact .of_ne rfl (by simp)
    | false =>
      obtain ⟨n, rfl⟩ := hsingle rfl
      have hn : IsName n := by
        cases hps _ List.mem_cons_self
        assumption
      exact ⟨opensSimple_of_name hn.2, fun _ => by simp⟩

/-- A statement starts with neither the mark that ends a block nor the word before an alternative. -/
theorem Formed.head_statement {d : Doc} (h : Formed .statement d) :
    ∃ t ts, d.tokens = t :: ts ∧ t ≠ .mark "\x7d" ∧ t ≠ .word "else" := by
  have simple {t : Token} (ht : t.opensSimple = true) : t ≠ .mark "\x7d" ∧ t ≠ .word "else" := by
    constructor <;>
      · rintro rfl
        exact absurd ht (by decide)
  cases h with
  | blockStmt hb =>
    cases hb
    rw [tokens_block]
    exact ⟨_, _, rfl, by decide, by decide⟩
  | @exprStmt e he =>
    rw [tokens_exprStmt]
    have hstart : StartsSimple (e.tokens ++ [Token.mark ";"]) := he.opening_expression (by simp) (by simp)
    match hts : e.tokens ++ [Token.mark ";"], hstart with
    | t :: us, hstart => exact ⟨t, us, rfl, simple hstart.1⟩
  | localVar _ hty _ =>
    obtain ⟨w, us, h, hw, _⟩ := hty.opening
    rw [tokens_localVar, h]
    exact ⟨_, _, rfl, simple hw⟩
  | @constructorCall isSuper args _ =>
    rw [tokens_constructorCall]
    exact ⟨_, _, rfl, nofun, by cases isSuper <;> decide⟩
  | _ => exact ⟨_, _, rfl, by decide, by decide⟩

theorem Formed.head_modifiers {ms : Doc} (h : Formed .modifiers ms) {w : String} {ts : List Token}
    (hw : w ∉ ["import", "package"]) :
    ∃ v us, ms.tokens ++ Token.word w :: ts = Token.word v :: us ∧ v ∉ ["import", "package"] := by
  cases h with
  | @modifiers ms =>
    rw [tokens_modifiers]
    cases ms with
    | nil => exact ⟨w, ts, rfl, hw⟩
    | cons m ms => exact ⟨_, _, rfl, by cases m <;> decide⟩

/-- A member starts with a word that starts nothing in front of the members. -/
theorem Formed.head_member {d : Doc} (h : Formed .member d) :
    ∃ w ts, d.tokens = .word w :: ts ∧ w ∉ ["import", "package"] := by
  have name : ∀ {n : String}, (Token.word n).opensSimple = true → n ∉ ["import", "package"] := by
    intro n hn
    simp only [List.mem_cons, List.not_mem_nil, or_false, not_or]
    constructor <;>
      · rintro rfl
        exact absurd hn (by decide)
  cases h with
  | @classDecl ms n flavour body hms _ _ =>
    rw [tokens_classDecl]
    exact hms.head_modifiers (by cases flavour <;> decide)
  | constructorDecl hms hn _ _ =>
    rw [tokens_constructorDecl]
    exact hms.head_modifiers (name (opensSimple_of_name hn.2))
  | methodDecl hms hty _ _ _ =>
    obtain ⟨w, us, h, hw, _⟩ := hty.opening
    rw [tokens_methodDecl, h]
    exact hms.head_modifiers (name hw)
  | fieldDecl hms hty _ _ =>
    obtain ⟨w, us, h, hw, _⟩ := hty.opening
    rw [tokens_fieldDecl, h]
    exact hms.head_modifiers (name hw)

end Doc

end TreeTidy
