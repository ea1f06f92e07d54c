import TreeTidy.Proofs.Source.RereadExpressions
/-!
Reading statements again, and with them all that the readers of expressions and statements read. A
statement without a keyword of its own is told from the others by how it starts.
-/
namespace TreeTidy.Reader

open Doc (plain Formed Separate)
open Lookahead (After)
open Token (AllLexed mark weightOf word wrapped)

variable {n : Nat} {ts ts' rest : List Token} {d : Doc}

/-- What starts no statement of another kind is read as a declaration or an expression. -/
theorem Reads.statement_simple (hs : StartsSimple ts) (h : Reads (Reader.simpleStatement n) ts d ts') :
    Reads (Reader.statement (n + 1)) ts d ts' := by
  rw [Reader.statement]
  refine .bind .rest ?_
  cases ts with
  | nil => cases hs
  | cons t us =>
    cases t with
    | mark m =>
      have hm : m ≠ "\x7b" ∧ m ≠ ";" := by
        constructor <;>
          · rintro rfl
            exact absurd hs.1 (by decide)
      dsimp only
      rw [if_neg hm.1, if_neg hm.2]
      exact h
    | word w =>
      have hw {v : String} (hv : (word v).opensSimple = false) : w ≠ v := by
        rintro rfl
        exact absurd hs.1 (Bool.eq_false_iff.mp hv)
      have hcall : ¬ ((w = "super" ∨ w = "this") ∧ us.head? = some (mark "(")) := by
        rintro ⟨rfl | rfl, hpar⟩
        · exact hw (by decide) rfl
        · exact hs.2 rfl hpar
      dsimp only
      rw [if_neg (hw (by decide)), if_neg (hw (by decide)), if_neg (hw (by decide)), if_neg (hw (by decide)),
        if_neg (hw (by decide)), if_neg (hw (by decide)), if_neg (hw (by decide)), if_neg hcall]
      exact h
    | _ => exact h

theorem stacked_cons (d : Doc) (ds : List Doc) : stacked (d :: ds) = d.tokens ++ stacked ds := by
  rw [stacked, List.map_cons, List.flatten_cons, List.append_assoc]
  rfl

theorem weight_stacked (ds : List Doc) : 1 ≤ weightOf (stacked ds) := by
  have := Token.one_le_weight (mark "\x7d")
  rw [stacked, Token.weightOf_append, Token.weightOf_cons]
  omega

/-- The brace alone. -/
theorem ListRead.nil_stacked {r : Nat → Reader (List Doc)} {form : Form} (hl : AllLexed ts')
    (h : ∀ g rest, Reads (r (g + 1)) (mark "\x7d" :: rest) [] rest) : ListRead r form stacked [] ts' := by
  refine ⟨by simp, hl, fun _ g rest hg => ?_⟩
  have := weight_stacked []
  obtain ⟨g, rfl⟩ := Nat.exists_eq_add_one.mpr (show 0 < g by omega)
  exact h g rest

/-- One statement or member before those up to the brace. -/
theorem ListRead.cons_stacked {r : Nat → Reader (List Doc)} {form : Form} {ds : List Doc}
    (hf : Formed form d) (hw : 1 ≤ weightOf d.tokens) (hds : ListRead r form stacked ds ts')
    (h : d.All Separate → ∀ {g rest}, 10 * weightOf d.tokens + 9 ≤ g → Reads (r g) (stacked ds ++ rest) ds rest →
      Reads (r (g + 1)) (d.tokens ++ (stacked ds ++ rest)) (d :: ds) rest) :
    ListRead r form stacked (d :: ds) ts' := by
  refine ⟨List.forall_mem_cons.mpr ⟨hf, hds.formed⟩, hds.lexed, fun hs g rest hg => ?_⟩
  obtain ⟨hsd, hsds⟩ := List.forall_mem_cons.mp hs
  have := weight_stacked ds
  rw [stacked_cons, Token.weightOf_append] at hg
  rw [stacked_cons, List.append_assoc]
  obtain ⟨g, rfl⟩ := Nat.exists_eq_add_one.mpr (show 0 < g by omega)
  exact h hsd (by omega) (hds.again hsds (by omega))

/-- Statements up to a brace start with the word before an alternative no more than the brace does. -/
theorem head_stacked {ds : List Doc} (h : ∀ d ∈ ds, Formed .statement d) :
    (stacked ds ++ rest).head? ≠ some (word "else") := by
  rcases ds with - | ⟨d, ds⟩
  · simp [stacked]
  · obtain ⟨t, us, hus, -, ht⟩ := (h d List.mem_cons_self).head_statement
    rw [stacked_cons, hus]
    rintro ⟨⟩
    exact ht rfl

theorem starts_type {ty : Doc} (h : Formed .type ty) (us : List Token) : StartsSimple (ty.tokens ++ us) := by
  obtain ⟨w, vs, hvs, hw, hthis, -⟩ := h.opening
  rw [hvs]
  exact ⟨hw, fun h => absurd (Token.word.inj h) hthis⟩

theorem startsDeclaration_type {ty : Doc} {name m : String} (h : Formed .type ty)
    (hk : isKeyword name = false) (hm : m = "=" ∨ m = ";") :
    Lookahead.startsDeclaration (ty.tokens ++ word name :: mark m :: rest) = true := by
  rw [Lookahead.startsDeclaration, Lookahead.afterType_type h rfl (by simp) (by simp),
    Lookahead.afterBrackets_other (by simp)]
  simpa [hk] using hm

/-- A declaration or an expression is read again if it does not start with the word for constants, which
may stand before a declaration. -/
theorem UnitRead.of_simple (hf : Formed .statement d) (hl : AllLexed ts')
    (hfinal : d.Separate → d.tokens.head? ≠ some (word "final"))
    (hstarts : ∀ rest, StartsSimple (d.tokens ++ rest))
    (h : d.All Separate → ∀ {g rest}, 10 * weightOf d.tokens ≤ g + 2 →
      SimpleStep Reads g (d.tokens ++ rest) d rest) : UnitRead Reader.statement .statement d ts' := by
  refine ⟨hf, hl, fun hs g rest hg => ?_⟩
  obtain ⟨t, us, hus, -⟩ := hf.head_statement
  have := Token.one_le_weightOf hus
  obtain ⟨g, rfl⟩ := Nat.exists_eq_add_of_le (show 2 ≤ g by omega)
  rw [Nat.add_comm] at hg ⊢
  refine .statement_simple (hstarts rest) (.simpleStatement ?_ (h hs hg))
  have := hfinal hs.self
  rw [hus] at this ⊢
  exact this

/-- A statement with a form of its own is read again by the same step. -/
theorem StatementRead.of_step (hf : Formed .statement d) (hl : AllLexed ts')
    (h : d.All Separate → ∀ {g rest}, 10 * weightOf d.tokens ≤ g →
      (rest.head? = some (word "else") → ts'.head? = some (word "else")) →
      StatementStep Reads g (d.tokens ++ rest) d rest) : StatementRead Reader.statement d ts' := by
  refine ⟨hf, hl, fun hs g rest hg helse => ?_⟩
  obtain ⟨g, rfl⟩ := Nat.exists_eq_add_one.mpr (show 0 < g by omega)
  exact .statement (h hs (by omega) helse)

theorem lt_weightOf_inParens (us : List Token) : weightOf us < weightOf (Token.inParens us) := by
  have := Token.one_le_weight (mark "(")
  rw [Token.inParens, Token.weightOf_append, Token.weightOf_cons]
  omega

namespace Rereads

theorem block_succ (ih : Rereads n) (hl : AllLexed ts) (h : Ran (Reader.block (n + 1)) ts d ts') :
    UnitRead Reader.block .block d ts' := by
  obtain ⟨ts₁, ss, rfl, hss, rfl⟩ := h.block
  have hss := ih.statements hl.tail hss
  refine ⟨.block hss.formed, hss.lexed, fun hs g rest hg => ?_⟩
  rw [Doc.tokens_block] at hg ⊢
  change 10 * weightOf (mark "\x7b" :: stacked ss) ≤ g at hg
  change Reads _ (mark "\x7b" :: (stacked ss ++ rest)) _ _
  rw [Token.weightOf_cons] at hg
  have := Token.one_le_weight (mark "\x7b")
  obtain ⟨g, rfl⟩ := Nat.exists_eq_add_one.mpr (show 0 < g by omega)
  exact .block (hss.again (fun s hm => hs.item hm) (by omega))

theorem statements_succ {ds : List Doc} (ih : Rereads n) (hl : AllLexed ts)
    (h : Ran (Reader.statements (n + 1)) ts ds ts') : ListRead Reader.statements .statement stacked ds ts' := by
  cases h.statements with
  | none => exact .nil_stacked hl.tail fun _ _ => .statements .none
  | @more d ds _ ts₁ _ hne hd hds =>
    have hd := ih.statement hl hd
    have hds := ih.statements hd.lexed hds
    obtain ⟨t, us, hus, hclose, -⟩ := hd.formed.head_statement
    refine .cons_stacked hd.formed (Token.one_le_weightOf hus) hds fun hs g rest hg hagain => ?_
    refine .statements (.more ?_ (hd.again hs (by omega) fun h => absurd h (head_stacked hds.formed)) hagain)
    rw [hus]
    rintro ⟨⟩
    exact hclose rfl

theorem simpleStatement_succ (ih : Rereads n) (hl : AllLexed ts)
    (h : Ran (Reader.simpleStatement (n + 1)) ts d ts') : UnitRead Reader.statement .statement d ts' := by
  obtain ⟨ts₁, hts, h⟩ := h.simpleStatement
  have hl : AllLexed ts₁ := by
    rcases hts with rfl | rfl
    · exact hl.tail
    · exact hl
  have semicolon {q : Prop} {rest : List Token} : After q (mark ";" :: ts') (mark ";" :: rest) :=
    .stop rfl (by decide)
  cases h with
  | @declared name ty _ hdecl hty hk =>
    have hty := (typesRead n).1 hl hty
    have hn : IsName name := ⟨hty.lexed.head, hk⟩
    have htokens : (plain (.localVar name) [some ty, none] []).tokens
        = ty.tokens ++ [word name, mark ";"] := Doc.tokens_localVar
    refine .of_simple (.localVar hn hty.formed (by simp)) hty.lexed.tail.tail id (fun rest => ?_)
      fun hs g rest hg => ?_
    · rw [htokens, List.append_assoc]
      exact starts_type hty.formed _
    · rw [htokens, Token.weightOf_append, Token.weightOf_cons, Token.weight_word] at hg
      rw [htokens, List.append_assoc]
      exact .declared (startsDeclaration_type hty.formed hk (.inr rfl))
        (hty.reads ⟨by simp, by simp, by simp⟩ (by omega)) hk
  | @initialized name ty e ts₂ _ hdecl hty hk he =>
    have hty := (typesRead n).1 hl hty
    have hn : IsName name := ⟨hty.lexed.head, hk⟩
    have he := ih.expression hty.lexed.tail.tail he
    have htokens {rest : List Token} : (plain (.localVar name) [some ty, some e] []).tokens ++ rest
        = ty.tokens ++ word name :: mark "=" :: (e.tokens ++ mark ";" :: rest) := by
      simp [wrapped]
    refine .of_simple (.localVar hn hty.formed (by simpa using he.formed)) he.lexed.tail id (fun rest => ?_)
      fun hs g rest hg => ?_
    · rw [htokens]
      exact starts_type hty.formed _
    · rw [← List.append_nil (Doc.tokens _), htokens, Token.weightOf_append, Token.weightOf_cons,
        Token.weight_word, Token.weightOf_cons, Token.weightOf_append] at hg
      rw [htokens]
      exact .initialized (startsDeclaration_type hty.formed hk (.inl rfl))
        (hty.reads ⟨by simp, by simp, by simp⟩ (by omega)) hk
        (he.again (hs.slot (by simp)) (by omega) semicolon (shut_mark (by decide)))
  | @exprStmt e _ hdecl he =>
    have he := ih.expression hl he
    refine .of_simple (.exprStmt he.formed) he.lexed.tail id (fun rest => ?_) fun hs g rest hg => ?_
    · rw [Doc.tokens_exprStmt, List.append_assoc]
      exact he.formed.opening_expression (by simp) (by simp)
    · rw [Doc.tokens_exprStmt, Token.weightOf_append, Token.weightOf_cons] at hg
      rw [Doc.tokens_exprStmt, List.append_assoc]
      have := Token.one_le_weight (mark ";")
      exact .exprStmt ((he.before (q := False) semicolon).startsDeclaration hdecl)
        (he.again (hs.slot (by simp)) (by omega) semicolon (shut_mark (by decide)))

theorem statement_succ (ih : Rereads n) (hl : AllLexed ts) (h : Ran (Reader.statement (n + 1)) ts d ts') :
    StatementRead Reader.statement d ts' := by
  have semicolon {q : Prop} {us vs : List Token} : After q (mark ";" :: us) (mark ";" :: vs) :=
    .stop rfl (by decide)
  rcases h.statement with h | h
  · cases h with
    | block hb =>
      have hb := ih.block hl hb
      refine .of_step (.blockStmt hb.formed) hb.lexed fun hs g rest hg _ => ?_
      have hagain : Reads (Reader.block g) (d.tokens ++ rest) d rest := hb.again hs (by omega)
      cases hb.formed
      rw [Doc.tokens_block] at hagain ⊢
      exact .block hagain
    | empty => exact .of_step .emptyStmt hl.tail fun _ _ _ _ _ => .empty
    | @ifStmt c s ts _ _ hc hs hne =>
      obtain ⟨_, -, hfc, hlc, -, hc⟩ := ih.inParens hl.tail hc
      have hst := ih.statement hlc hs
      have htokens : (plain .ifStmt [some c, some s, none] []).tokens
          = word "if" :: (Token.inParens c.tokens ++ s.tokens) := by
        rw [Doc.tokens_ifStmt, Option.map_none, wrapped, List.append_nil]
      refine .of_step (.ifStmt hfc hst.formed (by simp)) hst.lexed fun hs g rest hg helse => ?_
      rw [htokens, Token.weightOf_cons, Token.weightOf_append, Token.weight_word] at hg
      rw [htokens, List.cons_append, List.append_assoc]
      have := lt_weightOf_inParens c.tokens
      exact .ifStmt (hc (hs.slot (by simp)) (by omega))
        (hst.again (hs.slot (by simp)) (by omega) helse) fun h => hne (helse h)
    | @ifElse c s o ts _ ts₂ _ hc hs ho =>
      obtain ⟨_, -, hfc, hlc, -, hc⟩ := ih.inParens hl.tail hc
      have hst := ih.statement hlc hs
      have ho := ih.statement hst.lexed.tail ho
      have htokens : (plain .ifStmt [some c, some s, some o] []).tokens
          = word "if" :: (Token.inParens c.tokens ++ (s.tokens ++ word "else" :: o.tokens)) := by
        rw [Doc.tokens_ifStmt, Option.map_some, wrapped, List.append_nil]
        rfl
      refine .of_step (.ifStmt hfc hst.formed (by simpa using ho.formed)) ho.lexed fun hs g rest hg helse => ?_
      rw [htokens, Token.weightOf_cons, Token.weightOf_append, Token.weightOf_append, Token.weightOf_cons,
        Token.weight_word, Token.weight_word] at hg
      rw [htokens, List.cons_append, List.append_assoc, List.append_assoc, List.cons_append]
      have := lt_weightOf_inParens c.tokens
      exact .ifElse (hc (hs.slot (by simp)) (by omega))
        (hst.again (hs.slot (by simp)) (by omega) fun _ => rfl) (ho.again (hs.slot (by simp)) (by omega) helse)
    | @whileLoop c s ts _ _ hc hs =>
      obtain ⟨_, -, hfc, hlc, -, hc⟩ := ih.inParens hl.tail hc
      have hst := ih.statement hlc hs
      refine .of_step (.whileLoop hfc hst.formed) hst.lexed fun hs g rest hg helse => ?_
      rw [Doc.tokens_whileLoop, Token.weightOf_cons, Token.weightOf_append, Token.weight_word] at hg
      rw [Doc.tokens_whileLoop, List.cons_append, List.append_assoc]
      have := lt_weightOf_inParens c.tokens
      exact .whileLoop (hc (hs.slot (by simp)) (by omega)) (hst.again (hs.slot (by simp)) (by omega) helse)
    | @forEach name ty e s ts ts₁ ts₂ _ hty hk he hs =>
      have hty := (typesRead n).1 hl.tail.tail hty
      have hn : IsName name := ⟨hty.lexed.head, hk⟩
      have he := ih.expression hty.lexed.tail.tail he
      have hst := ih.statement he.lexed.tail hs
      have htokens : (plain (.forEach name) [some ty, some e, some s] []).tokens = word "for" :: mark "(" ::
          (ty.tokens ++ word name :: mark ":" :: (e.tokens ++ mark ")" :: s.tokens)) := by
        simp [Token.inParens]
      refine .of_step (.forEach hn hty.formed he.formed hst.formed) hst.lexed fun hs g rest hg helse => ?_
      rw [htokens, Token.weightOf_cons, Token.weightOf_cons, Token.weightOf_append, Token.weightOf_cons,
        Token.weightOf_cons, Token.weightOf_append, Token.weightOf_cons, Token.weight_word,
        Token.weight_word] at hg
      rw [htokens, List.cons_append, List.cons_append, List.append_assoc, List.cons_append, List.cons_append,
        List.append_assoc, List.cons_append]
      exact .forEach (hty.reads ⟨by simp, by simp, by simp⟩ (by omega)) hk
        (he.again (hs.slot (by simp)) (by omega) (.close (by simp)) (shut_mark (by decide)))
        (hst.again (hs.slot (by simp)) (by omega) helse)
    | returnNone => exact .of_step (.returnStmt (by simp)) hl.tail.tail fun _ _ _ _ _ => .returnNone
    | @returnValue e ts _ hne he =>
      have he := ih.expression hl.tail he
      have htokens : (plain .returnStmt [some e] []).tokens = word "return" :: (e.tokens ++ [mark ";"]) :=
        Doc.tokens_returnStmt
      refine .of_step (.returnStmt (by simpa using he.formed)) he.lexed.tail fun hs g rest hg _ => ?_
      rw [htokens, Token.weightOf_cons, Token.weightOf_append, Token.weight_word] at hg
      rw [htokens, List.cons_append, List.append_assoc]
      exact .returnValue (fun h => hne ((he.before (q := False) semicolon).glimpse.head.trans h))
        (he.again (hs.slot (by simp)) (by omega) semicolon (shut_mark (by decide)))
    | @throwStmt e ts _ he =>
      have he := ih.expression hl.tail he
      refine .of_step (.throwStmt he.formed) he.lexed.tail fun hs g rest hg _ => ?_
      rw [Doc.tokens_throwStmt, Token.weightOf_cons, Token.weightOf_append, Token.weight_word] at hg
      rw [Doc.tokens_throwStmt, List.cons_append, List.append_assoc]
      exact .throwStmt (he.again (hs.slot (by simp)) (by omega) semicolon (shut_mark (by decide)))
    | breakStmt => exact .of_step .breakStmt hl.tail.tail fun _ _ _ _ _ => .breakStmt
    | continueStmt => exact .of_step .continueStmt hl.tail.tail fun _ _ _ _ _ => .continueStmt
    | @constructorCall isSuper args ts _ hargs =>
      have hargs := ih.arguments hl.tail hargs
      refine .of_step (.constructorCall hargs.formed) hargs.lexed.tail fun hs g rest hg _ => ?_
      rw [Doc.tokens_constructorCall, Token.weightOf_cons, Token.weightOf_append, Token.weight_word] at hg
      rw [Doc.tokens_constructorCall, List.cons_append, List.append_assoc]
      exact .constructorCall (hargs.again (fun a ha => hs.item ha) (by omega))
  · have h := ih.simpleStatement hl h
    exact ⟨h.formed, h.lexed, fun hs _ _ hg _ => h.again hs (by omega)⟩

end Rereads

/-- Whatever is read of expressions and statements is read again. -/
theorem rereads (n : Nat) : Rereads n := by
  induction n with
  | zero =>
    constructor
    all_goals intros
    all_goals exact (Ran.exhausted ‹_›).elim
  | succ n ih =>
    exact {
      expression := ih.expression_succ
      lambda := ih.lambda_succ
      conditional := ih.conditional_succ
      operation := ih.operation_succ
      operatorsAfter := ih.operatorsAfter_succ
      unary := ih.unary_succ
      suffixesAfter := ih.suffixesAfter_succ
      primary := ih.primary_succ
      arguments := ih.arguments_succ
      argumentsFrom := ih.argumentsFrom_succ
      lambdaParams := ih.lambdaParams_succ
      block := ih.block_succ
      statements := ih.statements_succ
      statement := ih.statement_succ
      inParens := ih.inParens_succ
      simpleStatement := ih.simpleStatement_succ }

end TreeTidy.Reader
