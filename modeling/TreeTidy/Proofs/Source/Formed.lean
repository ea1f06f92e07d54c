import TreeTidy.Proofs.Source.Spelling
import TreeTidy.Proofs.Source.Tokens
/-!
What documents look like that are read off a text. How tightly operators bind is left out; operands that
begin and end as such are told from other expressions, since other tokens join on to them.
-/
namespace TreeTidy

namespace Token

/-- Every token is one that texts have. -/
def AllLexed (ts : List Token) : Prop := ∀ t ∈ ts, t.Lexed

theorem AllLexed.tail {t : Token} {ts : List Token} (h : AllLexed (t :: ts)) : AllLexed ts :=
  fun u hu => h u (List.mem_cons_of_mem _ hu)

theorem AllLexed.head {t : Token} {ts : List Token} (h : AllLexed (t :: ts)) : t.Lexed :=
  h t List.mem_cons_self

theorem AllLexed.right {ts us : List Token} (h : AllLexed (ts ++ us)) : AllLexed us :=
  fun u hu => h u (List.mem_append_right _ hu)

/-- Whether an operand can start with a token. -/
def opensOperand : Token → Bool
  | mark m => ["(", "!", "~", "-", "+", "++", "--"].contains m
  | _ => true

end Token

/-- Whether a word can be an identifier. -/
def IsName (n : String) : Prop := (Token.word n).Lexed ∧ Reader.isKeyword n = false

instance : DecidablePred IsName := fun _ => inferInstanceAs (Decidable (_ ∧ _))

/-- Whether a text is made of identifiers with points between them. -/
def IsPath (path : String) : Prop :=
  ∃ first parts, (∀ n ∈ first :: parts, IsName n) ∧ path = ".".intercalate (first :: parts)

theorem ofPath_intercalate {first : String} {parts : List String}
    (h : ∀ n ∈ first :: parts, IsName n) :
    Token.ofPath (".".intercalate (first :: parts)) = Token.ofParts (first :: parts) := by
  have hpoint : ∀ cs : List Char, Lexeme.isWord cs = true → '.' ∉ cs := by
    intro cs hw hm
    match cs with
    | [] => cases hm
    | c :: cs =>
      simp only [Lexeme.isWord, Bool.and_eq_true, List.all_eq_true] at hw
      rcases List.mem_cons.mp hm with rfl | hm
      · exact absurd hw.1.2 (by decide)
      · exact absurd (hw.2 _ hm) (by decide)
  have hsplit : (".".intercalate (first :: parts)).toList.splitOn '.'
      = (first :: parts).map String.toList := by
    rw [String.toList_intercalate]
    refine List.splitOn_intercalate '.' (fun cs hcs => ?_) (by simp)
    obtain ⟨n, hn, rfl⟩ := List.mem_map.mp hcs
    exact hpoint _ (h n hn).1
  rw [Token.ofPath, hsplit, List.map_map]
  congr 1
  exact List.map_id'' (fun _ => String.ofList_toList) _

theorem IsPath.ofPath_eq_cons {path : String} (h : IsPath path) :
    ∃ w ts, Token.ofPath path = .word w :: ts := by
  obtain ⟨first, parts, hn, rfl⟩ := h
  rw [ofPath_intercalate hn]
  cases parts <;> exact ⟨first, _, rfl⟩

/-- What is read as one. -/
inductive Form
  | type
  /-- An operand without operators before it. -/
  | suffixed
  | operand
  /-- An expression that is no lambda. -/
  | operation
  | expression
  | param
  /-- The body of a lambda. -/
  | body
  | block
  | statement
  | modifiers
  | member
  | importDecl
  | unit

namespace Doc

open Reader (param)

/-- What is read as something of the given form. -/
inductive Formed : Form → Doc → Prop
  | primitiveType {p : Primitive} : Formed .type (plain (.primitiveType p) [] [])
  | varType : Formed .type (plain .varType [] [])
  | classType {path : String} {args : List Doc} : IsPath path → (∀ a ∈ args, Formed .type a) →
      Formed .type (plain (.classType path false) [] args)
  | diamond {path : String} : IsPath path → Formed .type (plain (.classType path true) [] [])
  | arrayType {e : Doc} : Formed .type e → Formed .type (plain .arrayType [some e] [])
  | literal {t : Token} {kind : NodeKind} : t.Lexed → Reader.literal? t = some kind →
      Formed .suffixed (plain kind [] [])
  | nameExpr {n : String} : IsName n → Formed .suffixed (plain (.nameExpr n) [] [])
  | typeName {n : String} : IsName n → Formed .suffixed (plain (.typeName n) [] [])
  | paren {e : Doc} : Formed .expression e → Formed .suffixed (plain .paren [some e] [])
  | newObject {ty : Doc} {args : List Doc} : Formed .type ty → (∀ a ∈ args, Formed .expression a) →
      Formed .suffixed (plain .newObject [some ty] args)
  | call {n : String} {args : List Doc} : IsName n → (∀ a ∈ args, Formed .expression a) →
      Formed .suffixed (plain (.methodCall n) [] args)
  | callOn {d : Doc} {n : String} {args : List Doc} : Formed .suffixed d → IsName n →
      (∀ a ∈ args, Formed .expression a) → Formed .suffixed (plain (.methodCall n) [some d] args)
  | field {d : Doc} {n : String} : Formed .suffixed d → IsName n →
      Formed .suffixed (plain (.fieldAccess n) [some d] [])
  | index {d i : Doc} : Formed .suffixed d → Formed .expression i →
      Formed .suffixed (plain .arrayAccess [some d, some i] [])
  | methodRef {d : Doc} {n : String} : Formed .suffixed d → IsName n ∨ n = "new" →
      Formed .suffixed (plain (.methodRef n) [some d] [])
  | trailing {op : UnaryOp} {d : Doc} : op.isPostfix = true → Formed .suffixed d →
      Formed .suffixed (plain (.unary op) [some d] [])
  | ofSuffixed {d : Doc} : Formed .suffixed d → Formed .operand d
  | leading {op : UnaryOp} {d : Doc} : op.isPostfix = false → Formed .operand d →
      Formed .operand (plain (.unary op) [some d] [])
  | cast {ty d : Doc} : Formed .type ty → Formed .operand d →
      Formed .operand (plain .castExpr [some ty, some d] [])
  | ofOperand {d : Doc} : Formed .operand d → Formed .operation d
  | binary {op : BinaryOp} {l r : Doc} : Formed .operation l → Formed .operation r →
      Formed .operation (plain (.binary op) [some l, some r] [])
  | instanceOf {l ty : Doc} : Formed .operation l → Formed .type ty →
      Formed .operation (plain .instanceOf [some l, some ty] [])
  | conditional {c x y : Doc} : Formed .operation c → Formed .expression x → Formed .expression y →
      Formed .operation (plain .conditional [some c, some x, some y] [])
  | assign {op : AssignOp} {l r : Doc} : Formed .operation l → Formed .expression r →
      Formed .operation (plain (.assign op) [some l, some r] [])
  | ofOperation {d : Doc} : Formed .operation d → Formed .expression d
  | lambda {parenthesized : Bool} {ps : List Doc} {b : Doc} : (∀ p ∈ ps, Formed .param p) →
      (parenthesized = false → ∃ n, ps = [param n none]) → Formed .body b →
      Formed .expression (plain (.lambda parenthesized) [some b] ps)
  | bare {n : String} : IsName n → Formed .param (param n none)
  | typed {n : String} {ty : Doc} : IsName n → Formed .type ty → Formed .param (param n (some ty))
  | ofExpression {d : Doc} : Formed .expression d → Formed .body d
  | ofBlock {d : Doc} : Formed .block d → Formed .body d
  | block {ss : List Doc} : (∀ s ∈ ss, Formed .statement s) → Formed .block (plain .block [] ss)
  | blockStmt {d : Doc} : Formed .block d → Formed .statement d
  | exprStmt {e : Doc} : Formed .expression e → Formed .statement (plain .exprStmt [some e] [])
  | localVar {n : String} {ty : Doc} {v : Option Doc} : IsName n → Formed .type ty →
      (∀ e ∈ v, Formed .expression e) → Formed .statement (plain (.localVar n) [some ty, v] [])
  | ifStmt {c s : Doc} {o : Option Doc} : Formed .expression c → Formed .statement s →
      (∀ s ∈ o, Formed .statement s) → Formed .statement (plain .ifStmt [some c, some s, o] [])
  | whileLoop {c s : Doc} : Formed .expression c → Formed .statement s →
      Formed .statement (plain .whileLoop [some c, some s] [])
  | forEach {n : String} {ty e s : Doc} : IsName n → Formed .type ty → Formed .expression e →
      Formed .statement s → Formed .statement (plain (.forEach n) [some ty, some e, some s] [])
  | returnStmt {v : Option Doc} : (∀ e ∈ v, Formed .expression e) →
      Formed .statement (plain .returnStmt [v] [])
  | throwStmt {e : Doc} : Formed .expression e → Formed .statement (plain .throwStmt [some e] [])
  | breakStmt : Formed .statement (plain .breakStmt [] [])
  | continueStmt : Formed .statement (plain .continueStmt [] [])
  | emptyStmt : Formed .statement (plain .emptyStmt [] [])
  | constructorCall {isSuper : Bool} {args : List Doc} : (∀ a ∈ args, Formed .expression a) →
      Formed .statement (plain (.constructorCall isSuper) [] args)
  | modifiers {ms : List Modifier} :
      Formed .modifiers (plain .modifiers [] (ms.map fun m => plain (.modifier m) [] []))
  | classDecl {ms : Doc} {n : String} {flavour : ClassFlavour} {body : List Doc} :
      Formed .modifiers ms → IsName n → (∀ m ∈ body, Formed .member m) →
      Formed .member (plain (.classDecl n flavour) [some ms] body)
  | constructorDecl {ms b : Doc} {n : String} {ps : List Doc} : Formed .modifiers ms → IsName n →
      (∀ p ∈ ps, Formed .param p) → Formed .block b →
      Formed .member (plain (.constructorDecl n) [some ms, some b] ps)
  | methodDecl {ms ty : Doc} {n : String} {ps : List Doc} {b : Option Doc} : Formed .modifiers ms →
      Formed .type ty → IsName n → (∀ p ∈ ps, Formed .param p) → (∀ d ∈ b, Formed .block d) →
      Formed .member (plain (.methodDecl n) [some ms, some ty, b] ps)
  | fieldDecl {ms ty : Doc} {n : String} {v : Option Doc} : Formed .modifiers ms →
      Formed .type ty → IsName n → (∀ e ∈ v, Formed .expression e) →
      Formed .member (plain (.fieldDecl n) [some ms, some ty, v] [])
  | importDecl {path : String} {isStatic wildcard : Bool} : IsPath path →
      Formed .importDecl (plain (.importDecl path isStatic wildcard) [] [])
  | unit {package : Option String} {imports body : List Doc} : (∀ path ∈ package, IsPath path) →
      (∀ i ∈ imports, Formed .importDecl i) → (∀ m ∈ body, Formed .member m) →
      Formed .unit (plain (.compilationUnit package) [some (plain .importList [] imports)] body)

theorem literal_written {t : Token} {kind : NodeKind} (h : Reader.literal? t = some kind) :
    (plain kind [] []).tokens = [t] ∧ t.endsOperand = true
      ∧ ∀ depth, ((plain kind [] []).printAt depth).toList = t.spelling := by
  unfold Reader.literal? at h
  split at h <;> cases h <;> exact ⟨rfl, rfl, fun _ => rfl⟩

/-- An operand starts with a token that operands start with, a type with a word. -/
theorem Formed.leads {form : Form} {d : Doc} (h : Formed form d) :
    match form with
    | .type => ∃ w, ∀ closing, ∃ ts, d.tokensThen closing = .word w :: ts
    | .suffixed | .operand => ∃ t ts, d.tokens = t :: ts ∧ t.opensOperand = true
    | _ => True := by
  induction h with
  | primitiveType => exact ⟨_, fun _ => ⟨_, rfl⟩⟩
  | varType => exact ⟨_, fun _ => ⟨_, rfl⟩⟩
  | classType hp _ _ =>
    obtain ⟨w, ts, h⟩ := hp.ofPath_eq_cons
    exact ⟨w, fun _ => ⟨_, by rw [plain, tokensThen_node, Token.ofNode, h]; rfl⟩⟩
  | diamond hp =>
    obtain ⟨w, ts, h⟩ := hp.ofPath_eq_cons
    exact ⟨w, fun _ => ⟨_, by rw [plain, tokensThen_node, Token.ofNode, h]; rfl⟩⟩
  | arrayType _ ih =>
    obtain ⟨w, h⟩ := ih
    obtain ⟨ts, h⟩ := h 0
    exact ⟨w, fun _ => ⟨_, congrArg (· ++ _) h⟩⟩
  | @literal t _ _ hk =>
    refine ⟨t, [], (literal_written hk).1, ?_⟩
    unfold Reader.literal? at hk
    split at hk <;> first | rfl | cases hk
  | nameExpr => exact ⟨_, _, rfl, rfl⟩
  | typeName => exact ⟨_, _, rfl, rfl⟩
  | paren => exact ⟨_, _, rfl, rfl⟩
  | newObject => exact ⟨_, _, rfl, rfl⟩
  | call => exact ⟨_, _, rfl, rfl⟩
  | callOn _ _ _ ih =>
    obtain ⟨t, ts, h, ho⟩ := ih
    exact ⟨t, _, congrArg (· ++ _ ++ _) h, ho⟩
  | field _ _ ih =>
    obtain ⟨t, ts, h, ho⟩ := ih
    exact ⟨t, _, congrArg (· ++ _) h, ho⟩
  | index _ _ ih =>
    obtain ⟨t, ts, h, ho⟩ := ih
    exact ⟨t, _, congrArg (· ++ _ ++ _) h, ho⟩
  | methodRef _ _ ih =>
    obtain ⟨t, ts, h, ho⟩ := ih
    exact ⟨t, _, congrArg (· ++ _) h, ho⟩
  | @trailing op d hop _ ih =>
    obtain ⟨t, ts, h, ho⟩ := ih
    refine ⟨t, ts ++ [Token.mark op.token], ?_, ho⟩
    change (if op.isPostfix then d.tokens ++ [Token.mark op.token] else _) = _
    rw [if_pos hop, h]
    rfl
  | ofSuffixed _ ih => exact ih
  | @leading op d hop _ _ =>
    refine ⟨.mark op.token, d.tokens, ?_, by cases op <;> rfl⟩
    change (if op.isPostfix then _ else .mark op.token :: d.tokens) = _
    rw [hop]
    rfl
  | cast => exact ⟨_, _, rfl, rfl⟩
  | _ => trivial

theorem leads_args {a : Doc} (ha : Formed .type a) (args : List Doc) (closing : Nat) :
    ∃ w ts, tokensOfArgs closing (a :: args) = .word w :: ts := by
  obtain ⟨w, h⟩ := ha.leads
  cases args with
  | nil => exact ⟨w, h closing⟩
  | cons b args =>
    obtain ⟨ts, h⟩ := h 0
    exact ⟨w, _, congrArg (· ++ _) h⟩

/-- Brackets after a type do not change how it starts. -/
theorem Formed.head_arrayOf {e : Doc} (h : Formed .type e) (n : Nat) :
    (Reader.arrayOf e n).tokens.head? = e.tokens.head? := by
  induction n generalizing e with
  | zero => rfl
  | succ n ih =>
    rw [Reader.arrayOf, ih (.arrayType h)]
    obtain ⟨w, hw⟩ := h.leads
    obtain ⟨ts, hw⟩ := hw 0
    change (e.tokensThen 0 ++ _).head? = (e.tokensThen 0).head?
    rw [hw]
    rfl

theorem Formed.head_tokensThen {d : Doc} (h : Formed .type d) (closing : Nat) :
    (d.tokensThen closing).head? = d.tokens.head? := by
  obtain ⟨w, h⟩ := h.leads
  obtain ⟨ts, h₁⟩ := h closing
  obtain ⟨us, h₂⟩ := h 0
  rw [tokens, h₁, h₂]
  rfl

end Doc

end TreeTidy
