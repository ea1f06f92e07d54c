import TreeTidy.Proofs.Print.Text
import TreeTidy.Proofs.Source.Covers
/-!
The text of a document that was read spells the tokens of the document, if no sign stands before an
operand that joins on to it.
-/
namespace TreeTidy

/-- Whether the operator and a token right after it are one mark. -/
def UnaryOp.joins : UnaryOp → Token → Bool
  | neg, .mark m => m == "-" || m == "--"
  | plus, .mark m => m == "+" || m == "++"
  | _, _ => false

/-- No operator of the document joins on to its operand, and no statement without a keyword of its own
starts with the word that may stand before a declaration. -/
def Doc.Separate (d : Doc) : Prop :=
  match d.kind with
  | .unary op => ∀ x ∈ d.slot? 0, ∀ t ∈ x.tokens.head?, op.joins t = false
  | .exprStmt | .localVar _ => d.tokens.head? ≠ some (.word "final")
  | _ => True

namespace Token

/-- How the characters that make an operator or an angle bracket longer do not start a token. -/
theorem head_not_mem {t : Token} (ht : t.Lexed) (hm : ∀ m, t ≠ mark m) :
    ∀ c ∈ t.spelling.head?, c ∉ ['=', '>', '<', '-', '+'] := by
  have hdigit : ∀ c ∈ ['=', '>', '<', '-', '+'], c.isDigit = false := by decide
  have hword : ∀ c ∈ ['=', '>', '<', '-', '+'], CharClass.startsWord c = false := by decide
  have number : ∀ {text : String}, Lexeme.isNumber text.toList = true →
      ∀ c ∈ text.toList.head?, c ∉ ['=', '>', '<', '-', '+'] := by
    intro text h c hc hl
    obtain ⟨cs, hcs⟩ := List.head?_eq_some_iff.mp hc
    simp [hcs, Lexeme.isNumber, hdigit c hl] at h
  cases t with
  | word text =>
    intro c hc hl
    obtain ⟨cs, hcs⟩ := List.head?_eq_some_iff.mp hc
    rw [spelling] at hcs
    simp [Lexed, hcs, Lexeme.isWord, hword c hl] at ht
  | int | long | double => exact number ht.1
  | string text =>
    intro c hc
    rw [spelling, Quoted.literal, String.toList_ofList] at hc
    cases hc
    decide
  | char text =>
    intro c hc
    rw [spelling, Quoted.literal, String.toList_ofList] at hc
    cases hc
    decide
  | mark m => exact absurd rfl (hm m)

end Token

namespace Spells

variable {cs : List Char} {ts : List Token} {t : Token}

/-- A mark stands apart from the token after it, blanks between them or not. -/
theorem apart {m : String} (h : Spells cs (t :: ts)) (hm : m ≠ "/")
    (hb : ∀ c ∈ Token.longer m, CharClass.isBlank c = false)
    (ht : t.Lexed → ∀ c ∈ t.spelling.head?, c ∉ Token.longer m) : (Token.mark m).Apart cs := by
  refine ⟨fun c hc hl => ?_, fun h => hm h.1⟩
  cases h with
  | blank hblank _ =>
    cases hc
    exact Bool.false_ne_true ((hb c hl).symm.trans hblank)
  | token hlexed _ _ =>
    refine ht hlexed c ?_ hl
    cases hs : t.spelling with
    | nil => exact absurd hs (Token.spelling_ne_nil hlexed)
    | cons d ds => rwa [hs] at hc

theorem apart_operator {op : UnaryOp} (h : Spells cs (t :: ts)) (ho : t.opensOperand = true)
    (hj : op.joins t = false) : (Token.mark op.token).Apart cs := by
  have hslash : op.token ≠ "/" := by cases op <;> decide
  have hlong : ∀ c ∈ Token.longer op.token, c ∈ ['=', '>', '<', '-', '+'] := by
    rw [Token.longer_eq]
    cases op <;> decide
  have hblank : ∀ c ∈ ['=', '>', '<', '-', '+'], CharClass.isBlank c = false := by decide
  refine h.apart hslash (fun c hc => hblank c (hlong c hc)) fun ht c hc hl => ?_
  by_cases hmark : ∃ m, t = .mark m
  · obtain ⟨m, rfl⟩ := hmark
    have hall : ∀ op ∈ Coded.all (α := UnaryOp), ∀ m ∈ ["(", "!", "~", "-", "+", "++", "--"],
        op.joins (.mark m) = false → ∀ c ∈ m.toList.head?, c ∉ Token.lengthens op.token.toList := by decide
    have hop : op ∈ Coded.all (α := UnaryOp) := by cases op <;> decide
    exact hall op hop m (List.contains_iff_mem.mp ho) hj c hc (Token.longer_eq _ ▸ hl)
  · exact Token.head_not_mem ht (fun m he => hmark ⟨m, he⟩) c hc (hlong c hl)

theorem apart_angle {w : String} (h : Spells cs (.word w :: ts)) : (Token.mark "<").Apart cs := by
  have hlong : ∀ c ∈ Token.longer "<", c ∈ ['=', '>', '<', '-', '+'] := by
    rw [Token.longer_eq]
    decide
  exact h.apart (by decide) (by decide) fun ht c hc hl =>
    Token.head_not_mem ht (by simp) c hc (hlong c hl)

end Spells

namespace Doc

open Token (mark severs trails word)

/-- What the text of a document spells before characters that do not join on to it. -/
def Spelt (form : Form) (d : Doc) : Prop :=
  match form with
  | .type => ∀ closing depth ⦃cs ts⦄, severs cs = true → Spells cs ts →
      Spells ((d.printAt depth).toList ++ (List.replicate closing '>' ++ cs))
        (d.tokensThen closing ++ ts)
  | .suffixed => ∀ depth ⦃cs ts⦄, trails cs = true → Spells cs ts →
      Spells ((d.printAt depth).toList ++ cs) (d.tokens ++ ts)
  | .modifiers => ∀ depth ⦃cs ts⦄, Spells cs ts →
      Spells ((d.printAt depth).toList ++ cs) (d.tokens ++ ts)
  | _ => ∀ depth, Covers (d.printAt depth) d.tokens

theorem Spelt.covers {form : Form} {d : Doc} (h : d.Spelt form) (depth : Nat) :
    Covers (d.printAt depth) d.tokens := by
  intro cs ts hcs hts
  cases form with
  | type => exact h 0 depth hcs hts
  | suffixed => exact h depth (by rw [trails, hcs]; rfl) hts
  | modifiers => exact h depth hts
  | _ => exact h depth hcs hts

theorem spells_args {args : List Doc} (h : ∀ a ∈ args, a.Spelt .type) (hne : args ≠ [])
    (closing depth : Nat) {cs : List Char} {ts : List Token} (hcs : severs cs = true)
    (hts : Spells cs ts) :
    Spells ((Print.commas (args.map (printAt depth))).toList ++ (List.replicate closing '>' ++ cs))
      (tokensOfArgs closing args ++ ts) := by
  induction args with
  | nil => exact absurd rfl hne
  | cons a args ih =>
    have ha := h a List.mem_cons_self
    cases args with
    | nil => simpa [Print.commas, tokensOfArgs] using ha closing depth hcs hts
    | cons b args =>
      have hb := ih (fun b hb => h b (List.mem_cons_of_mem _ hb)) (List.cons_ne_nil _ _)
      rw [Print.commas, List.map_cons, List.map_cons, String.intercalate_cons_cons,
        String.toList_append, String.toList_append, List.append_assoc, List.append_assoc]
      change Spells _ ((a.tokensThen 0 ++ Token.mark "," :: tokensOfArgs closing (b :: args)) ++ ts)
      rw [List.append_assoc]
      exact ha 0 depth rfl (.lone (m := ",") (by decide) (.blank rfl hb))

theorem spells_modifiers {ms : List Modifier} (depth : Nat) {cs : List Char} {ts : List Token}
    (hts : Spells cs ts) :
    Spells (((plain .modifiers [] (ms.map fun m => plain (.modifier m) [] [])).printAt depth).toList ++ cs)
      ((plain .modifiers [] (ms.map fun m => plain (.modifier m) [] [])).tokens ++ ts) := by
  have words : ∀ ms : List Modifier, Spells
      ((String.join ((ms.map Modifier.keyword).map (· ++ " "))).toList ++ cs)
      (ms.map (word ·.keyword) ++ ts) := by
    intro ms
    induction ms with
    | nil => exact hts
    | cons m ms ih =>
      have hm : (Token.word m.keyword).Lexed := by cases m <;> decide
      rw [List.map_cons, List.map_cons, String.join_cons, String.toList_append,
        String.toList_append, List.append_assoc, List.append_assoc]
      exact .cut (t := .word m.keyword) hm rfl (.blank rfl ih)
  have htext : (ms.map fun m => plain (.modifier m) [] []).map (printAt depth)
      = ms.map Modifier.keyword := List.map_map.trans rfl
  have htokens : ((ms.map fun m => plain (.modifier m) [] []).map tokens).flatten
      = ms.map (word ·.keyword) := by
    rw [List.map_map, ← List.flatMap_def, List.map_eq_flatMap]
    rfl
  rw [plain, printAt_node, tokens, tokensThen_node]
  change Spells ((String.join (((ms.map _).map (printAt depth)).map (· ++ " "))).toList ++ cs)
    (((ms.map _).map tokens).flatten ++ ts)
  rw [htext, htokens]
  exact words ms

theorem covers_importDecl {path : String} {isStatic wildcard : Bool} (hp : IsPath path) (depth : Nat) :
    Covers ((plain (.importDecl path isStatic wildcard) [] []).printAt depth)
      (plain (.importDecl path isStatic wildcard) [] []).tokens := by
  intro cs ts hcs hts
  change Spells (("import " ++ (if isStatic then "static " else "") ++ path
      ++ (if wildcard then ".*" else "") ++ ";").toList ++ cs)
    ((word "import" :: (if isStatic then [word "static"] else []) ++ Token.ofPath path
      ++ (if wildcard then [mark ".", mark "*"] else []) ++ [mark ";"]) ++ ts)
  simp only [String.toList_append, List.append_assoc, List.cons_append]
  have hend : Spells (path.toList ++ ((if wildcard then ".*" else "").toList ++ (";".toList ++ cs)))
      (Token.ofPath path ++ ((if wildcard then [mark ".", mark "*"] else [])
        ++ ([mark ";"] ++ ts))) := by
    cases wildcard with
    | false => exact .path hp (fun w c hc => by cases hc; decide) (.lone (m := ";") (by decide) hts)
    | true =>
      exact .path hp (fun w c hc => by cases hc; decide) (.lone (m := ".") (by decide)
        (.cut (t := .mark "*") (by decide) rfl (.lone (m := ";") (by decide) hts)))
  cases isStatic with
  | false => exact .cut (t := .word "import") (by decide) rfl (.blank rfl hend)
  | true =>
    exact .cut (t := .word "import") (by decide) rfl (.blank rfl
      (.cut (t := .word "static") (by decide) rfl (.blank rfl hend)))

/-- The parts of a unit that have no text have no tokens. -/
theorem covers_unit {package : Option String} {imports body : List Doc} (depth : Nat)
    (hp : ∀ path ∈ package, IsPath path) (hi : ∀ i ∈ imports, Covers (i.printAt depth) i.tokens)
    (hb : ∀ m ∈ body, Covers (m.printAt depth) m.tokens) :
    Covers ((plain (.compilationUnit package) [some (plain .importList [] imports)] body).printAt depth)
      (plain (.compilationUnit package) [some (plain .importList [] imports)] body).tokens := by
  have himports : Covers ((plain .importList [] imports).printAt depth) (imports.map tokens).flatten := by
    rw [plain, printAt_node]
    exact .joined (.line depth) hi
  have hempty : (plain .importList [] imports).printAt depth = "" →
      (imports.map tokens).flatten = [] := by
    intro h
    have : Spells (_ ++ []) _ := himports rfl .nil
    rw [h, List.append_nil, List.append_nil] at this
    exact this.eq_nil
  have hhead : ∀ path ∈ package,
      Covers ("package " ++ path ++ ";") (word "package" :: Token.ofPath path ++ [mark ";"]) := by
    intro path hpath cs ts hcs hts
    simp only [String.toList_append, List.append_assoc, List.cons_append]
    exact .cut (t := .word "package") (by decide) rfl (.blank rfl
      (.path (hp path hpath) (fun w c hc => by cases hc; decide) (.lone (m := ";") (by decide) hts)))
  let parts : List (String × List Token) :=
    (package.map fun p => ("package " ++ p ++ ";", word "package" :: Token.ofPath p ++ [mark ";"])).toList
      ++ [((plain .importList [] imports).printAt depth, (imports.map tokens).flatten)].filter (·.1 ≠ "")
      ++ body.map fun m => (m.printAt depth, m.tokens)
  have hparts : ∀ p ∈ parts, Covers p.1 p.2 := by
    intro p hp
    rcases List.mem_append.mp hp with hp | hp
    · rcases List.mem_append.mp hp with hp | hp
      · obtain ⟨path, hpath, rfl⟩ := Option.map_eq_some_iff.mp (Option.mem_toList.mp hp)
        exact hhead path hpath
      · cases List.mem_singleton.mp (List.mem_of_mem_filter hp)
        exact himports
    · obtain ⟨m, hm, rfl⟩ := List.mem_map.mp hp
      exact hb m hm
  have htext : (plain (.compilationUnit package) [some (plain .importList [] imports)] body).printAt depth
      = "\n\n".intercalate (parts.map Prod.fst) := by
    rw [plain, printAt_node]
    change Print.unit (package.map ("package " ++ · ++ ";"))
      (some ((plain .importList [] imports).printAt depth)) (body.map (printAt depth)) = _
    by_cases he : (plain .importList [] imports).printAt depth = "" <;>
      cases package <;> simp [Print.unit, parts, he, Function.comp_def]
  have htokens : (plain (.compilationUnit package) [some (plain .importList [] imports)] body).tokens
      = (parts.map Prod.snd).flatten := by
    rw [tokens, plain, tokensThen_node]
    change Token.wrapped [.word "package"] (package.map Token.ofPath) [.mark ";"]
      ++ ((plain .importList [] imports).tokens ++ (body.map tokens).flatten) = _
    have hi : (plain .importList [] imports).tokens = (imports.map tokens).flatten := by
      rw [tokens, plain, tokensThen_node]
      rfl
    by_cases he : (plain .importList [] imports).printAt depth = "" <;>
      cases package <;> simp [Token.wrapped, parts, he, hi, hempty, Function.comp_def]
  rw [htext, htokens]
  exact .joined ⟨by decide, by decide⟩ hparts

/-! One lemma for each thing that is read, from what its parts spell. -/

namespace Spelt

variable {d e c l r x y b i ty ms : Doc} {n : String} {args ps ss body : List Doc}

section Types

/-- A word joins on to nothing that closes type arguments. -/
theorem apart_closing (n : Nat) {cs : List Char} (hcs : severs cs = true) (w : String) :
    (Token.word w).Apart (List.replicate n '>' ++ cs) := by
  cases n with
  | zero => exact Token.apart_of_severs (t := word "var") (by decide) hcs
  | succ n => exact fun c hc => by cases hc; decide

theorem primitiveType (p : Primitive) : (plain (.primitiveType p) [] []).Spelt .type := by
  intro closing depth cs ts hcs hts
  have hp : (Token.word p.keyword).Lexed := by cases p <;> decide
  exact .token hp (apart_closing closing hcs _) (.closers closing hcs hts)

theorem varType : (plain .varType [] []).Spelt .type := by
  intro closing depth cs ts hcs hts
  exact .token (t := word "var") (by decide) (apart_closing closing hcs _) (.closers closing hcs hts)

theorem classType {path : String} (hp : IsPath path) (ha : ∀ a ∈ args, Formed .type a)
    (hargs : ∀ a ∈ args, a.Spelt .type) : (plain (.classType path false) [] args).Spelt .type := by
  intro closing depth cs ts hcs hts
  rw [plain, printAt_node, tokensThen_node]
  cases args with
  | nil =>
    change Spells ((path ++ "").toList ++ _) (Token.ofPath path ++ Token.closers closing ++ ts)
    rw [String.append_empty, List.append_assoc]
    exact .path hp (apart_closing closing hcs) (.closers closing hcs hts)
  | cons a args =>
    obtain ⟨w, us, hw⟩ := leads_args (ha a List.mem_cons_self) args (closing + 1)
    change Spells ((path ++ ("<" ++ Print.commas ((a :: args).map (printAt depth)) ++ ">")).toList ++ _)
      ((Token.ofPath path ++ mark "<" :: tokensOfArgs (closing + 1) (a :: args)) ++ ts)
    simp only [String.toList_append, List.append_assoc]
    have hrest := spells_args hargs (List.cons_ne_nil a args) (closing + 1) depth hcs hts
    refine .path hp (fun w c hc => by cases hc; decide) (.token (t := mark "<") (by decide) ?_ hrest)
    rw [hw] at hrest
    exact hrest.apart_angle

theorem diamond {path : String} (hp : IsPath path) : (plain (.classType path true) [] []).Spelt .type := by
  intro closing depth cs ts hcs hts
  change Spells ((path ++ "<>").toList ++ _)
    ((Token.ofPath path ++ mark "<" :: Token.closers (closing + 1)) ++ ts)
  rw [String.toList_append, List.append_assoc, List.append_assoc]
  exact .path hp (fun w c hc => by cases hc; decide) (.token (t := mark "<") (by decide)
    ⟨fun c hc => by cases hc; decide, fun h => absurd h.1 (by decide)⟩ (.closers (closing + 1) hcs hts))

theorem arrayType (he : e.Spelt .type) : (plain .arrayType [some e] []).Spelt .type := by
  intro closing depth cs ts hcs hts
  change Spells ((e.printAt depth ++ "[]").toList ++ _)
    ((e.tokens ++ mark "[" :: mark "]" :: Token.closers closing) ++ ts)
  rw [String.toList_append, List.append_assoc, List.append_assoc]
  exact he 0 depth rfl (.lone (m := "[") (by decide)
    (.lone (m := "]") (by decide) (.closers closing hcs hts)))

end Types

section Suffixed

/-- A point and a name end a suffixed operand. -/
theorem severs_point {cs : List Char} (hn : (Token.word n).Lexed) :
    severs ('.' :: (n.toList ++ cs)) = true := by
  obtain ⟨c, rest, hc⟩ := List.exists_cons_of_ne_nil (Token.spelling_ne_nil hn)
  rw [Token.spelling] at hc
  rw [Token.Lexed, hc] at hn
  simp only [Lexeme.isWord, Bool.and_eq_true, Bool.not_eq_true'] at hn
  simp [severs, Token.separators, hc, hn.1.1.2]

theorem commas {form : Form} (h : ∀ a ∈ args, a.Spelt form) (depth : Nat) :
    Covers (Print.commas (args.map (printAt depth))) (Token.commas (args.map tokens)) :=
  Covers.commas fun a ha => (h a ha).covers depth

theorem literal {t : Token} {kind : NodeKind} (ht : t.Lexed) (hk : Reader.literal? t = some kind) :
    (plain kind [] []).Spelt .suffixed := by
  intro depth cs ts hcs hts
  obtain ⟨h₁, h₂, h₃⟩ := literal_written hk
  rw [h₁, h₃]
  exact .token ht (Token.apart_of_trails ht h₂ hcs) hts

theorem nameExpr (hn : IsName n) : (plain (.nameExpr n) [] []).Spelt .suffixed :=
  fun _ _ _ hcs hts => .token hn.1 (Token.apart_of_trails hn.1 rfl hcs) hts

theorem typeName (hn : IsName n) : (plain (.typeName n) [] []).Spelt .suffixed :=
  fun _ _ _ hcs hts => .token hn.1 (Token.apart_of_trails hn.1 rfl hcs) hts

theorem paren (he : e.Spelt .expression) : (plain .paren [some e] []).Spelt .suffixed := by
  intro depth cs ts hcs hts
  change Spells (("(" ++ e.printAt depth ++ ")").toList ++ cs) (Token.inParens e.tokens ++ ts)
  simp only [String.toList_append, List.append_assoc]
  exact (he.covers depth).parens hts

theorem newObject (hty : ty.Spelt .type) (hargs : ∀ a ∈ args, a.Spelt .expression) :
    (plain .newObject [some ty] args).Spelt .suffixed := by
  intro depth cs ts hcs hts
  rw [plain, printAt_node, tokens, tokensThen_node]
  change Spells (("new " ++ ty.printAt depth ++ "(" ++ Print.commas (args.map (printAt depth))
      ++ ")").toList ++ cs)
    ((word "new" :: ty.tokens ++ Token.inParens (Token.commas (args.map tokens))) ++ ts)
  simp only [String.toList_append, List.append_assoc, List.cons_append]
  exact .cut (t := word "new") (by decide) rfl (.blank rfl
    (hty.covers depth rfl ((commas hargs depth).parens hts)))

theorem call (hn : IsName n) (hargs : ∀ a ∈ args, a.Spelt .expression) :
    (plain (.methodCall n) [] args).Spelt .suffixed := by
  intro depth cs ts hcs hts
  rw [plain, printAt_node, tokens, tokensThen_node]
  change Spells (("" ++ n ++ "(" ++ Print.commas (args.map (printAt depth)) ++ ")").toList ++ cs)
    (word n :: Token.inParens (Token.commas (args.map tokens)) ++ ts)
  simp only [String.empty_append, String.toList_append, List.append_assoc, List.cons_append]
  exact .cut (t := word n) hn.1 rfl ((commas hargs depth).parens hts)

theorem callOn (hd : d.Spelt .suffixed) (hn : IsName n) (hargs : ∀ a ∈ args, a.Spelt .expression) :
    (plain (.methodCall n) [some d] args).Spelt .suffixed := by
  intro depth cs ts hcs hts
  rw [plain, printAt_node, tokens, tokensThen_node]
  change Spells ((("" ++ d.printAt depth ++ ".") ++ n ++ "("
      ++ Print.commas (args.map (printAt depth)) ++ ")").toList ++ cs)
    (([] ++ d.tokens ++ [mark "."])
      ++ word n :: Token.inParens (Token.commas (args.map tokens)) ++ ts)
  simp only [String.empty_append, String.toList_append, List.nil_append, List.append_assoc,
    List.cons_append]
  refine hd depth ?_ (.lone (m := ".") (by decide)
    (.cut (t := word n) hn.1 rfl ((commas hargs depth).parens hts)))
  exact Bool.or_eq_true_iff.mpr (.inl (severs_point hn.1))

theorem field (hd : d.Spelt .suffixed) (hn : IsName n) :
    (plain (.fieldAccess n) [some d] []).Spelt .suffixed := by
  intro depth cs ts hcs hts
  change Spells ((d.printAt depth ++ "." ++ n).toList ++ cs) ((d.tokens ++ [mark ".", word n]) ++ ts)
  simp only [String.toList_append, List.append_assoc]
  refine hd depth ?_ (.lone (m := ".") (by decide) (.token (t := word n) hn.1
    (Token.apart_of_trails hn.1 rfl hcs) hts))
  exact Bool.or_eq_true_iff.mpr (.inl (severs_point hn.1))

theorem index (hd : d.Spelt .suffixed) (hi : i.Spelt .expression) :
    (plain .arrayAccess [some d, some i] []).Spelt .suffixed := by
  intro depth cs ts hcs hts
  change Spells ((d.printAt depth ++ "[" ++ i.printAt depth ++ "]").toList ++ cs)
    ((d.tokens ++ mark "[" :: i.tokens ++ [mark "]"]) ++ ts)
  simp only [String.toList_append, List.append_assoc, List.cons_append]
  exact hd depth rfl (.lone (m := "[") (by decide) (hi depth rfl (.lone (m := "]") (by decide) hts)))

theorem methodRef (hd : d.Spelt .suffixed) (hn : IsName n ∨ n = "new") :
    (plain (.methodRef n) [some d] []).Spelt .suffixed := by
  intro depth cs ts hcs hts
  have hw : (Token.word n).Lexed := hn.elim (·.1) fun h => by subst h; decide
  have hlong : Token.longer "::" = [] := (Token.longer_eq _).trans (by decide)
  change Spells ((d.printAt depth ++ "::" ++ n).toList ++ cs) ((d.tokens ++ [mark "::", word n]) ++ ts)
  simp only [String.toList_append, List.append_assoc]
  exact hd depth rfl (.token (t := mark "::") (by decide)
    ⟨fun _ _ => by simp [hlong], fun h => absurd h.1 (by decide)⟩
    (.token (t := word n) hw (Token.apart_of_trails hw rfl hcs) hts))

theorem trailing {op : UnaryOp} (hop : op.isPostfix = true) (hd : d.Spelt .suffixed) :
    (plain (.unary op) [some d] []).Spelt .suffixed := by
  intro depth cs ts hcs hts
  have htext : (plain (.unary op) [some d] []).printAt depth = d.printAt depth ++ op.token :=
    if_pos hop
  have htokens : (plain (.unary op) [some d] []).tokens = d.tokens ++ [mark op.token] := if_pos hop
  have hmark : (Token.mark op.token).Lexed ∧ (Token.mark op.token).endsOperand = true
      ∧ ∀ cs, trails (op.token.toList ++ cs) = true := by
    cases op <;> first | exact ⟨by decide, rfl, fun _ => rfl⟩ | cases hop
  rw [htext, htokens, String.toList_append, List.append_assoc, List.append_assoc]
  exact hd depth (hmark.2.2 cs) (.token (t := mark op.token) hmark.1
    (Token.apart_of_trails hmark.1 hmark.2.1 hcs) hts)

end Suffixed

section Operations

theorem leading {op : UnaryOp} (hop : op.isPostfix = false) (hf : Formed .operand d)
    (hd : d.Spelt .operand) (hj : ∀ t ∈ d.tokens.head?, op.joins t = false) :
    (plain (.unary op) [some d] []).Spelt .operand := by
  intro depth cs ts hcs hts
  have htext : (plain (.unary op) [some d] []).printAt depth = op.token ++ d.printAt depth :=
    if_neg (Bool.eq_false_iff.mp hop)
  have htokens : (plain (.unary op) [some d] []).tokens = mark op.token :: d.tokens :=
    if_neg (Bool.eq_false_iff.mp hop)
  have hmark : (Token.mark op.token).Lexed := by cases op <;> decide
  have hrest := hd depth hcs hts
  obtain ⟨t, us, ht, ho⟩ := hf.leads
  rw [htext, htokens, String.toList_append, List.append_assoc]
  rw [ht] at hrest hj ⊢
  exact .token (t := mark op.token) hmark (hrest.apart_operator ho (hj t rfl)) hrest

theorem cast (hty : ty.Spelt .type) (hd : d.Spelt .operand) :
    (plain .castExpr [some ty, some d] []).Spelt .operand := by
  intro depth cs ts hcs hts
  change Spells (("(" ++ ty.printAt depth ++ ") " ++ d.printAt depth).toList ++ cs)
    ((Token.inParens ty.tokens ++ d.tokens) ++ ts)
  simp only [String.toList_append, List.append_assoc]
  exact (hty.covers depth).parens (.blank rfl (hd depth hcs hts))

theorem binary {op : BinaryOp} (hl : l.Spelt .operation) (hr : r.Spelt .operation) :
    (plain (.binary op) [some l, some r] []).Spelt .operation := by
  intro depth cs ts hcs hts
  change Spells ((l.printAt depth ++ " " ++ op.token ++ " " ++ r.printAt depth).toList ++ cs)
    ((l.tokens ++ mark op.token :: r.tokens) ++ ts)
  simp only [String.toList_append, List.append_assoc, List.cons_append]
  exact hl depth rfl (.spaced (by cases op <;> decide) (hr depth hcs hts))

theorem instanceOf (hl : l.Spelt .operation) (hty : ty.Spelt .type) :
    (plain .instanceOf [some l, some ty] []).Spelt .operation := by
  intro depth cs ts hcs hts
  change Spells ((l.printAt depth ++ " instanceof " ++ ty.printAt depth).toList ++ cs)
    ((l.tokens ++ word "instanceof" :: ty.tokens) ++ ts)
  simp only [String.toList_append, List.append_assoc, List.cons_append]
  exact hl depth rfl (.blank rfl (.cut (t := word "instanceof") (by decide) rfl
    (.blank rfl (hty.covers depth hcs hts))))

theorem conditional (hc : c.Spelt .operation) (hx : x.Spelt .expression) (hy : y.Spelt .expression) :
    (plain .conditional [some c, some x, some y] []).Spelt .operation := by
  intro depth cs ts hcs hts
  change Spells ((c.printAt depth ++ " ? " ++ x.printAt depth ++ " : " ++ y.printAt depth).toList ++ cs)
    ((c.tokens ++ mark "?" :: x.tokens ++ mark ":" :: y.tokens) ++ ts)
  simp only [String.toList_append, List.append_assoc, List.cons_append]
  exact hc depth rfl (.spaced (m := "?") (by decide)
    (hx depth rfl (.spaced (m := ":") (by decide) (hy depth hcs hts))))

theorem assign {op : AssignOp} (hl : l.Spelt .operation) (hr : r.Spelt .expression) :
    (plain (.assign op) [some l, some r] []).Spelt .operation := by
  intro depth cs ts hcs hts
  change Spells ((l.printAt depth ++ " " ++ op.token ++ " " ++ r.printAt depth).toList ++ cs)
    ((l.tokens ++ mark op.token :: r.tokens) ++ ts)
  simp only [String.toList_append, List.append_assoc, List.cons_append]
  exact hl depth rfl (.spaced (by cases op <;> decide) (hr depth hcs hts))

theorem lambda {parenthesized : Bool} (hps : ∀ p ∈ ps, p.Spelt .param)
    (hbare : parenthesized = false → ∃ n, ps = [Reader.param n none]) (hb : b.Spelt .body) :
    (plain (.lambda parenthesized) [some b] ps).Spelt .expression := by
  intro depth cs ts hcs hts
  have hbody := Spells.spaced (m := "->") (by decide) (hb depth hcs hts)
  rw [plain, printAt_node, tokens, tokensThen_node]
  cases parenthesized with
  | true =>
    change Spells (((if Print.isBare ps && false then _ else _) ++ " -> " ++ b.printAt depth).toList ++ cs)
      (((if Print.isBare ps && false then _ else _) ++ mark "->" :: b.tokens) ++ ts)
    rw [Bool.and_false, if_neg Bool.false_ne_true, if_neg Bool.false_ne_true]
    simp only [String.toList_append, List.append_assoc, List.cons_append]
    exact (commas hps depth).parens hbody
  | false =>
    have hcommas := commas hps depth
    obtain ⟨n, rfl⟩ := hbare rfl
    change Spells ((Print.commas _ ++ " -> " ++ b.printAt depth).toList ++ cs)
      ((Token.commas _ ++ mark "->" :: b.tokens) ++ ts)
    simp only [String.toList_append, List.append_assoc, List.cons_append]
    exact hcommas rfl hbody

theorem bare (hn : IsName n) : (Reader.param n none).Spelt .param :=
  fun _ _ _ hcs hts => .cut hn.1 hcs hts

theorem typed (hn : IsName n) (hty : ty.Spelt .type) : (Reader.param n (some ty)).Spelt .param := by
  intro depth cs ts hcs hts
  change Spells (("" ++ ty.printAt depth ++ " " ++ n).toList ++ cs) ((ty.tokens ++ [word n]) ++ ts)
  simp only [String.empty_append, String.toList_append, List.append_assoc]
  exact hty.covers depth rfl (.blank rfl (.cut (t := word n) hn.1 hcs hts))

end Operations

section Statements

theorem block (hss : ∀ s ∈ ss, s.Spelt .statement) : (plain .block [] ss).Spelt .block := by
  intro depth cs ts hcs hts
  rw [plain, printAt_node, tokens, tokensThen_node]
  exact Covers.statements depth (fun s hm => (hss s hm).covers (depth + 1)) hts

theorem exprStmt (he : e.Spelt .expression) : (plain .exprStmt [some e] []).Spelt .statement := by
  intro depth cs ts hcs hts
  change Spells ((e.printAt depth ++ ";").toList ++ cs) ((e.tokens ++ [mark ";"]) ++ ts)
  simp only [String.toList_append, List.append_assoc]
  exact he depth rfl (.lone (m := ";") (by decide) hts)

/-- The name of a variable or field with its value, if it has one. -/
theorem declared (hn : IsName n) {v : Option Doc} (hv : ∀ e ∈ v, e.Spelt .expression) (depth : Nat)
    {cs : List Char} {ts : List Token} (hts : Spells cs ts) :
    Spells (n.toList ++ ((Print.wrapped " = " (v.map (printAt depth)) "").toList ++ (";".toList ++ cs)))
      (word n :: (Token.wrapped [mark "="] (v.map tokens) [] ++ mark ";" :: ts)) := by
  cases v with
  | none => exact .cut (t := word n) hn.1 rfl (.lone (m := ";") (by decide) hts)
  | some e =>
    change Spells (n.toList ++ ((" = " ++ e.printAt depth ++ "").toList ++ (";".toList ++ cs)))
      (word n :: (([mark "="] ++ e.tokens ++ []) ++ mark ";" :: ts))
    simp only [String.append_empty, String.toList_append, List.append_nil, List.append_assoc]
    exact .cut (t := word n) hn.1 rfl (.spaced (m := "=") (by decide)
      (hv e rfl depth rfl (.lone (m := ";") (by decide) hts)))

theorem localVar (hn : IsName n) (hty : ty.Spelt .type) {v : Option Doc}
    (hv : ∀ e ∈ v, e.Spelt .expression) : (plain (.localVar n) [some ty, v] []).Spelt .statement := by
  intro depth cs ts hcs hts
  rw [plain, printAt_node, tokens, tokensThen_node]
  change Spells ((ty.printAt depth ++ " " ++ n ++ Print.wrapped " = " (v.map (printAt depth)) ""
      ++ ";").toList ++ cs)
    ((ty.tokens ++ word n :: Token.wrapped [mark "="] (v.map tokens) [] ++ [mark ";"]) ++ ts)
  simp only [String.toList_append, List.append_assoc, List.cons_append]
  exact hty.covers depth rfl (.blank rfl (declared hn hv depth hts))

theorem ifStmt (hc : c.Spelt .expression) (hx : x.Spelt .statement) {o : Option Doc}
    (ho : ∀ y ∈ o, y.Spelt .statement) : (plain .ifStmt [some c, some x, o] []).Spelt .statement := by
  intro depth cs ts hcs hts
  cases o with
  | none =>
    change Spells (("if (" ++ c.printAt depth ++ ") " ++ x.printAt depth ++ "").toList ++ cs)
      ((word "if" :: Token.inParens c.tokens ++ x.tokens ++ []) ++ ts)
    simp only [String.append_empty, String.toList_append, List.append_nil, List.append_assoc,
      List.cons_append]
    exact .cut (t := word "if") (by decide) rfl (.blank rfl ((hc.covers depth).parens (.blank rfl
      (hx depth hcs hts))))
  | some y =>
    change Spells (("if (" ++ c.printAt depth ++ ") " ++ x.printAt depth
        ++ (" else " ++ y.printAt depth ++ "")).toList ++ cs)
      ((word "if" :: Token.inParens c.tokens ++ x.tokens ++ ([word "else"] ++ y.tokens ++ [])) ++ ts)
    simp only [String.append_empty, String.toList_append, List.append_nil, List.append_assoc,
      List.cons_append]
    exact .cut (t := word "if") (by decide) rfl (.blank rfl ((hc.covers depth).parens (.blank rfl
      (hx depth rfl (.blank rfl (.cut (t := word "else") (by decide) rfl (.blank rfl
        (ho y rfl depth hcs hts))))))))

theorem whileLoop (hc : c.Spelt .expression) (hx : x.Spelt .statement) :
    (plain .whileLoop [some c, some x] []).Spelt .statement := by
  intro depth cs ts hcs hts
  change Spells (("while (" ++ c.printAt depth ++ ") " ++ x.printAt depth).toList ++ cs)
    ((word "while" :: Token.inParens c.tokens ++ x.tokens) ++ ts)
  simp only [String.toList_append, List.append_assoc, List.cons_append]
  exact .cut (t := word "while") (by decide) rfl (.blank rfl
    ((hc.covers depth).parens (.blank rfl (hx depth hcs hts))))

theorem forEach (hn : IsName n) (hty : ty.Spelt .type) (he : e.Spelt .expression)
    (hx : x.Spelt .statement) : (plain (.forEach n) [some ty, some e, some x] []).Spelt .statement := by
  intro depth cs ts hcs hts
  change Spells (("for (" ++ ty.printAt depth ++ " " ++ n ++ " : " ++ e.printAt depth ++ ") "
      ++ x.printAt depth).toList ++ cs)
    ((word "for" :: Token.inParens (ty.tokens ++ word n :: mark ":" :: e.tokens) ++ x.tokens) ++ ts)
  simp only [Token.inParens, String.toList_append, List.append_assoc, List.cons_append]
  have hbody : Spells (")".toList ++ ' ' :: ((x.printAt depth).toList ++ cs))
      (mark ")" :: (x.tokens ++ ts)) := .lone (m := ")") (by decide) (.blank rfl (hx depth hcs hts))
  exact .cut (t := word "for") (by decide) rfl (.blank rfl (.lone (m := "(") (by decide)
    (hty.covers depth rfl (.blank rfl (.cut (t := word n) hn.1 rfl
      (.spaced (m := ":") (by decide) (he depth rfl hbody)))))))

theorem returnStmt {v : Option Doc} (hv : ∀ e ∈ v, e.Spelt .expression) :
    (plain .returnStmt [v] []).Spelt .statement := by
  intro depth cs ts hcs hts
  cases v with
  | none =>
    change Spells (("return" ++ "" ++ ";").toList ++ cs) (word "return" :: mark ";" :: ts)
    rw [String.append_empty, String.toList_append, List.append_assoc]
    exact .cut (t := word "return") (by decide) rfl (.lone (m := ";") (by decide) hts)
  | some e =>
    change Spells (("return" ++ (" " ++ e.printAt depth ++ "") ++ ";").toList ++ cs)
      ((word "return" :: e.tokens ++ [mark ";"]) ++ ts)
    simp only [String.append_empty, String.toList_append, List.append_assoc, List.cons_append]
    exact .cut (t := word "return") (by decide) rfl (.blank rfl
      (hv e rfl depth rfl (.lone (m := ";") (by decide) hts)))

theorem throwStmt (he : e.Spelt .expression) : (plain .throwStmt [some e] []).Spelt .statement := by
  intro depth cs ts hcs hts
  change Spells (("throw " ++ e.printAt depth ++ ";").toList ++ cs)
    ((word "throw" :: e.tokens ++ [mark ";"]) ++ ts)
  simp only [String.toList_append, List.append_assoc, List.cons_append]
  exact .cut (t := word "throw") (by decide) rfl
    (.blank rfl (he depth rfl (.lone (m := ";") (by decide) hts)))

theorem breakStmt : (plain .breakStmt [] []).Spelt .statement := by
  intro depth cs ts hcs hts
  change Spells ("break;".toList ++ cs) (word "break" :: mark ";" :: ts)
  exact .cut (t := word "break") (by decide) rfl (.lone (m := ";") (by decide) hts)

theorem continueStmt : (plain .continueStmt [] []).Spelt .statement := by
  intro depth cs ts hcs hts
  change Spells ("continue;".toList ++ cs) (word "continue" :: mark ";" :: ts)
  exact .cut (t := word "continue") (by decide) rfl (.lone (m := ";") (by decide) hts)

theorem emptyStmt : (plain .emptyStmt [] []).Spelt .statement :=
  fun _ _ _ _ hts => .lone (m := ";") (by decide) hts

theorem constructorCall {isSuper : Bool} (hargs : ∀ a ∈ args, a.Spelt .expression) :
    (plain (.constructorCall isSuper) [] args).Spelt .statement := by
  intro depth cs ts hcs hts
  have hcall := (commas hargs depth).parens (.lone (m := ";") (by decide) hts)
  rw [plain, printAt_node, tokens, tokensThen_node]
  change Spells (((if isSuper then "super(" else "this(") ++ Print.commas (args.map (printAt depth))
      ++ ");").toList ++ cs)
    ((word (if isSuper then "super" else "this") :: Token.inParens (Token.commas (args.map tokens))
      ++ [mark ";"]) ++ ts)
  simp only [String.toList_append, List.append_assoc, List.cons_append]
  cases isSuper with
  | true => exact .cut (t := word "super") (by decide) rfl hcall
  | false => exact .cut (t := word "this") (by decide) rfl hcall

end Statements

section Members

theorem classDecl {flavour : ClassFlavour} (hms : ms.Spelt .modifiers) (hn : IsName n)
    (hbody : ∀ m ∈ body, m.Spelt .member) :
    (plain (.classDecl n flavour) [some ms] body).Spelt .member := by
  intro depth cs ts hcs hts
  have hmembers := Covers.members depth (fun m hm => (hbody m hm).covers (depth + 1)) hts
  have hflavour : (Token.word flavour.keyword).Lexed := by cases flavour <;> decide
  rw [plain, printAt_node, tokens, tokensThen_node]
  change Spells ((ms.printAt depth ++ flavour.keyword ++ " " ++ n ++ " "
      ++ Print.members depth (body.map (printAt (depth + 1)))).toList ++ cs)
    ((ms.tokens ++ word flavour.keyword :: word n :: Token.inBraces (body.map tokens).flatten) ++ ts)
  simp only [String.toList_append, List.append_assoc, List.cons_append]
  exact hms depth (.cut hflavour rfl (.blank rfl (.cut (t := word n) hn.1 rfl (.blank rfl hmembers))))

theorem constructorDecl (hms : ms.Spelt .modifiers) (hn : IsName n) (hps : ∀ p ∈ ps, p.Spelt .param)
    (hb : b.Spelt .block) : (plain (.constructorDecl n) [some ms, some b] ps).Spelt .member := by
  intro depth cs ts hcs hts
  rw [plain, printAt_node, tokens, tokensThen_node]
  change Spells ((ms.printAt depth ++ n ++ "(" ++ Print.commas (ps.map (printAt depth)) ++ ") "
      ++ b.printAt depth).toList ++ cs)
    ((ms.tokens ++ word n :: Token.inParens (Token.commas (ps.map tokens)) ++ b.tokens) ++ ts)
  simp only [String.toList_append, List.append_assoc, List.cons_append]
  exact hms depth (.cut (t := word n) hn.1 rfl ((commas hps depth).parens (.blank rfl
    (hb depth hcs hts))))

theorem methodDecl (hms : ms.Spelt .modifiers) (hty : ty.Spelt .type) (hn : IsName n)
    (hps : ∀ p ∈ ps, p.Spelt .param) {o : Option Doc} (ho : ∀ b ∈ o, b.Spelt .block) :
    (plain (.methodDecl n) [some ms, some ty, o] ps).Spelt .member := by
  intro depth cs ts hcs hts
  have hparams := commas hps depth
  rw [plain, printAt_node, tokens, tokensThen_node]
  cases o with
  | none =>
    change Spells ((ms.printAt depth ++ ty.printAt depth ++ " " ++ n ++ "("
        ++ Print.commas (ps.map (printAt depth)) ++ ")" ++ ";").toList ++ cs)
      ((ms.tokens ++ ty.tokens ++ word n :: Token.inParens (Token.commas (ps.map tokens))
        ++ [mark ";"]) ++ ts)
    simp only [String.toList_append, List.append_assoc, List.cons_append]
    exact hms depth (hty.covers depth rfl (.blank rfl (.cut (t := word n) hn.1 rfl
      (hparams.parens (.lone (m := ";") (by decide) hts)))))
  | some b =>
    change Spells ((ms.printAt depth ++ ty.printAt depth ++ " " ++ n ++ "("
        ++ Print.commas (ps.map (printAt depth)) ++ ")" ++ (" " ++ b.printAt depth)).toList ++ cs)
      ((ms.tokens ++ ty.tokens ++ word n :: Token.inParens (Token.commas (ps.map tokens))
        ++ b.tokens) ++ ts)
    simp only [String.toList_append, List.append_assoc, List.cons_append]
    exact hms depth (hty.covers depth rfl (.blank rfl (.cut (t := word n) hn.1 rfl
      (hparams.parens (.blank rfl (ho b rfl depth hcs hts))))))

theorem fieldDecl (hms : ms.Spelt .modifiers) (hty : ty.Spelt .type) (hn : IsName n) {v : Option Doc}
    (hv : ∀ e ∈ v, e.Spelt .expression) :
    (plain (.fieldDecl n) [some ms, some ty, v] []).Spelt .member := by
  intro depth cs ts hcs hts
  rw [plain, printAt_node, tokens, tokensThen_node]
  change Spells ((ms.printAt depth ++ ty.printAt depth ++ " " ++ n
      ++ Print.wrapped " = " (v.map (printAt depth)) "" ++ ";").toList ++ cs)
    ((ms.tokens ++ ty.tokens ++ word n :: Token.wrapped [mark "="] (v.map tokens) []
      ++ [mark ";"]) ++ ts)
  simp only [String.toList_append, List.append_assoc, List.cons_append]
  exact hms depth (hty.covers depth rfl (.blank rfl (declared hn hv depth hts)))

end Members

end Spelt

/-- The text of a document that was read spells the tokens of the document. -/
theorem Formed.spelt {form : Form} {d : Doc} (h : Formed form d) (hs : d.All Separate) :
    d.Spelt form := by
  induction h with
  | @primitiveType p => exact .primitiveType p
  | varType => exact .varType
  | classType hp ha ih => exact .classType hp ha fun a hm => ih a hm (hs.item hm)
  | diamond hp => exact .diamond hp
  | arrayType _ ih => exact .arrayType (ih (hs.slot (by simp)))
  | literal ht hk => exact .literal ht hk
  | nameExpr hn => exact .nameExpr hn
  | typeName hn => exact .typeName hn
  | paren _ ih => exact .paren (ih (hs.slot (by simp)))
  | newObject _ _ iht iha => exact .newObject (iht (hs.slot (by simp))) fun a hm => iha a hm (hs.item hm)
  | call hn _ ih => exact .call hn fun a hm => ih a hm (hs.item hm)
  | callOn _ hn _ ihd ih => exact .callOn (ihd (hs.slot (by simp))) hn fun a hm => ih a hm (hs.item hm)
  | field _ hn ih => exact .field (ih (hs.slot (by simp))) hn
  | index _ _ ih ihi => exact .index (ih (hs.slot (by simp))) (ihi (hs.slot (by simp)))
  | methodRef _ hn ih => exact .methodRef (ih (hs.slot (by simp))) hn
  | trailing hop _ ih => exact .trailing hop (ih (hs.slot (by simp)))
  | ofSuffixed _ ih => exact (ih hs).covers
  | @leading _ d hop hd ih => exact .leading hop hd (ih (hs.slot (by simp))) (hs.self d rfl)
  | cast _ _ iht ihd => exact .cast (iht (hs.slot (by simp))) (ihd (hs.slot (by simp)))
  | ofOperand _ ih => exact ih hs
  | binary _ _ ihl ihr => exact .binary (ihl (hs.slot (by simp))) (ihr (hs.slot (by simp)))
  | instanceOf _ _ ihl iht => exact .instanceOf (ihl (hs.slot (by simp))) (iht (hs.slot (by simp)))
  | conditional _ _ _ ihc ihx ihy =>
    exact .conditional (ihc (hs.slot (by simp))) (ihx (hs.slot (by simp))) (ihy (hs.slot (by simp)))
  | assign _ _ ihl ihr => exact .assign (ihl (hs.slot (by simp))) (ihr (hs.slot (by simp)))
  | ofOperation _ ih => exact ih hs
  | lambda _ hbare _ ihp ihb =>
    exact .lambda (fun p hm => ihp p hm (hs.item hm)) hbare (ihb (hs.slot (by simp)))
  | bare hn => exact .bare hn
  | typed hn _ ih => exact .typed hn (ih (hs.slot (by simp)))
  | ofExpression _ ih => exact ih hs
  | ofBlock _ ih => exact ih hs
  | block _ ih => exact .block fun s hm => ih s hm (hs.item hm)
  | blockStmt _ ih => exact ih hs
  | exprStmt _ ih => exact .exprStmt (ih (hs.slot (by simp)))
  | localVar hn _ _ iht ihv =>
    exact .localVar hn (iht (hs.slot (by simp))) fun e he => ihv e he (hs.slot (by simp_all))
  | ifStmt _ _ _ ihc ihx iho =>
    exact .ifStmt (ihc (hs.slot (by simp))) (ihx (hs.slot (by simp)))
      fun y hy => iho y hy (hs.slot (by simp_all))
  | whileLoop _ _ ihc ihx => exact .whileLoop (ihc (hs.slot (by simp))) (ihx (hs.slot (by simp)))
  | forEach hn _ _ _ iht ihe ihx =>
    exact .forEach hn (iht (hs.slot (by simp))) (ihe (hs.slot (by simp))) (ihx (hs.slot (by simp)))
  | returnStmt _ ih => exact .returnStmt fun e he => ih e he (hs.slot (by simp_all))
  | throwStmt _ ih => exact .throwStmt (ih (hs.slot (by simp)))
  | breakStmt => exact .breakStmt
  | continueStmt => exact .continueStmt
  | emptyStmt => exact .emptyStmt
  | constructorCall _ ih => exact .constructorCall fun a hm => ih a hm (hs.item hm)
  | modifiers => exact fun depth _ _ => spells_modifiers depth
  | classDecl _ hn _ ihm ih =>
    exact .classDecl (ihm (hs.slot (by simp))) hn fun m hm => ih m hm (hs.item hm)
  | constructorDecl _ hn _ _ ihm ihp ihb =>
    exact .constructorDecl (ihm (hs.slot (by simp))) hn (fun p hp => ihp p hp (hs.item hp))
      (ihb (hs.slot (by simp)))
  | methodDecl _ _ hn _ _ ihm iht ihp ihb =>
    exact .methodDecl (ihm (hs.slot (by simp))) (iht (hs.slot (by simp))) hn
      (fun p hp => ihp p hp (hs.item hp)) fun b hb => ihb b hb (hs.slot (by simp_all))
  | fieldDecl _ _ hn _ ihm iht ihv =>
    exact .fieldDecl (ihm (hs.slot (by simp))) (iht (hs.slot (by simp))) hn
      fun e he => ihv e he (hs.slot (by simp_all))
  | importDecl hp => exact fun depth => covers_importDecl hp depth
  | @unit package imports body hp _ _ ihi ihm =>
    intro depth
    have hi : (plain .importList [] imports).All Separate := hs.slot (by simp)
    exact covers_unit depth hp (fun i hm => (ihi i hm (hi.item hm)).covers depth)
      fun m hm => (ihm m hm (hs.item hm)).covers depth

/-- The tokens of a document that was read are those of its text. -/
theorem Formed.ofText_print {form : Form} {d : Doc} (h : Formed form d) (hs : d.All Separate) :
    Token.ofText d.print = .ok d.tokens := by
  have : Spells (_ ++ []) _ := (h.spelt hs).covers 0 rfl .nil
  rw [List.append_nil, List.append_nil] at this
  exact this.ofChars

end Doc

end TreeTidy
