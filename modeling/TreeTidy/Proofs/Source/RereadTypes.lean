import TreeTidy.Proofs.Source.Runs
import TreeTidy.Proofs.Source.Scanning
/-!
Reading types again. A list of types may end in the middle of a mark, and the tokens of a type that is
printed merge the brackets that end it with those after it; so what is left is told up to how closing
brackets are put together.
-/
namespace TreeTidy

namespace Doc

open Reader (arrayOf)
open Token (weightOf closers pairs)

theorem tokensThen_arrayOf (e : Doc) (n closing : Nat) :
    (arrayOf e (n + 1)).tokensThen closing = e.tokens ++ (pairs (n + 1) ++ closers closing) := by
  have : (arrayOf e (n + 1)) = arrayOf (plain .arrayType [some e] []) n := rfl
  rw [this]
  induction n generalizing e with
  | zero => rfl
  | succ n ih =>
    rw [arrayOf, ih _ rfl]
    change (e.tokens ++ _) ++ _ = _
    rw [List.append_assoc]
    rfl

theorem tokensThen_arrayOf_of {e : Doc} {us : List Token}
    (h : ∀ closing, e.tokensThen closing = us ++ closers closing) (n closing : Nat) :
    (arrayOf e n).tokensThen closing = us ++ (pairs n ++ closers closing) := by
  cases n with
  | zero => exact h closing
  | succ n =>
    rw [tokensThen_arrayOf, tokens, h 0]
    exact congrArg (· ++ _) (List.append_nil us)

theorem Formed.arrayOf {e : Doc} (h : Formed .type e) (n : Nat) :
    Formed .type (Reader.arrayOf e n) := by
  induction n generalizing e with
  | zero => exact h
  | succ n ih => exact ih (.arrayType h)

end Doc

namespace Reader

open Doc (plain Formed tokensOfArgs)
open Token (AllLexed Closing closers pairs ofPath weightOf)

variable {ts ts' : List Token}

theorem nameTail_eq {parts : List String} (h : nameTail ts = (parts, ts')) :
    ts = Token.pointed parts ++ ts' ∧ ∀ w ∈ parts, isKeyword w = false := by
  induction ts using nameTail.induct generalizing parts ts' with
  | case1 w rest hk =>
    rw [nameTail, if_pos hk] at h
    cases h
    exact ⟨rfl, by simp⟩
  | case2 w rest hk more ts'' _ ih =>
    rw [nameTail, if_neg hk] at h
    cases h
    obtain ⟨h₁, h₂⟩ := ih rfl
    refine ⟨congrArg (Token.mark "." :: .word w :: ·) h₁, fun n hn => ?_⟩
    rcases List.mem_cons.mp hn with rfl | hn
    · exact Bool.eq_false_iff.mpr hk
    · exact h₂ n hn
  | case3 rest h₀ =>
    rw [nameTail] at h
    · cases h
      exact ⟨rfl, by simp⟩
    · exact h₀

theorem nameTail_other (h : ts.head? ≠ some (.mark ".")) : nameTail ts = ([], ts) := by
  rw [nameTail]
  rintro w rest rfl
  exact h rfl

theorem nameTail_pointed {parts : List String} (hp : ∀ w ∈ parts, isKeyword w = false)
    (hr : nameTail ts = ([], ts)) : nameTail (Token.pointed parts ++ ts) = (parts, ts) := by
  induction parts with
  | nil => exact hr
  | cons n parts ih =>
    change nameTail (.mark "." :: .word n :: (Token.pointed parts ++ ts)) = _
    rw [nameTail, hp n List.mem_cons_self, ih fun w hw => hp w (List.mem_cons_of_mem _ hw)]
    rfl

theorem Ran.qualifiedName {path : String} (h : Ran qualifiedName ts path ts') (hl : AllLexed ts) :
    IsPath path ∧ ts = ofPath path ++ ts' := by
  rw [Reader.qualifiedName] at h
  obtain ⟨first, ts₁, hf, p, p', hp⟩ := h.bind
  obtain ⟨rfl, hk⟩ := hf.identifier
  cases hp
  obtain ⟨h₁, h₂⟩ := nameTail_eq (show nameTail ts₁ = _ from rfl)
  have hn : ∀ n ∈ first :: (nameTail ts₁).1, IsName n := by
    intro n hn
    rcases List.mem_cons.mp hn with rfl | hn
    · exact ⟨hl.head, hk⟩
    · refine ⟨hl.tail _ ?_, h₂ n hn⟩
      rw [h₁]
      exact List.mem_append_left _ (Token.word_mem_pointed hn)
  refine ⟨⟨first, _, hn, rfl⟩, ?_⟩
  change _ = ofPath (".".intercalate (first :: (nameTail ts₁).1)) ++ (nameTail ts₁).2
  rw [ofPath_intercalate hn, Token.ofParts_cons, List.cons_append, ← h₁]

/-- A name is read up to tokens that do not go on with it. -/
theorem Reads.pathThen {path : String} (h : IsPath path) (hr : nameTail ts = ([], ts)) :
    Reads qualifiedName (ofPath path ++ ts) path ts := by
  obtain ⟨first, parts, hn, rfl⟩ := h
  rw [ofPath_intercalate hn, Token.ofParts_cons]
  refine (Reads.identifier (hn first List.mem_cons_self).2).bind fun p => ?_
  have := nameTail_pointed (fun w hw => (hn w (List.mem_cons_of_mem _ hw)).2) hr
  refine ⟨(Cursor.before ⟨p, Token.pointed parts ++ ts⟩ ts).place, ?_⟩
  change Except.ok (".".intercalate (first :: (nameTail (Token.pointed parts ++ ts)).1),
    Cursor.before ⟨p, Token.pointed parts ++ ts⟩ (nameTail (Token.pointed parts ++ ts)).2) = _
  rw [this]
  rfl

theorem Reads.qualifiedName {path : String} (h : IsPath path)
    (hr : ts.head? ≠ some (.mark ".")) : Reads qualifiedName (ofPath path ++ ts) path ts :=
  .pathThen h (nameTail_other hr)

theorem Ran.closeAngle {u : Unit} (h : Ran closeAngle ts u ts') :
    ts = .mark ">" :: ts' ∨ (∃ us, ts = .mark ">>" :: us ∧ ts' = .mark ">" :: us)
      ∨ ∃ us, ts = .mark ">>>" :: us ∧ ts' = .mark ">>" :: us := by
  obtain ⟨p, p', h⟩ := h
  rw [Reader.closeAngle] at h
  split at h
  case h_1 hts => cases h; exact .inl hts
  case h_2 us hts => cases h; exact .inr (.inl ⟨us, hts, rfl⟩)
  case h_3 us hts => cases h; exact .inr (.inr ⟨us, hts, rfl⟩)
  case h_4 => cases h

theorem Reads.closeAngle {n : Nat} {cl : List Token} (h : Closing (n + 1) cl) :
    ∃ cl', Closing n cl' ∧ ∀ ts, Reads closeAngle (cl ++ ts) () (cl' ++ ts) := by
  cases h with
  | one h => exact ⟨_, h, fun ts p => ⟨p + 1, rfl⟩⟩
  | two h => exact ⟨_, .one h, fun ts p => ⟨p, rfl⟩⟩
  | three h => exact ⟨_, .two h, fun ts p => ⟨p, rfl⟩⟩

theorem bracketPairs_eq : ts = pairs (bracketPairs ts) ++ ts.drop (2 * bracketPairs ts) := by
  induction ts using bracketPairs.induct with
  | case1 rest ih =>
    rw [bracketPairs, Nat.mul_succ]
    exact congrArg (Token.mark "[" :: .mark "]" :: ·) ih
  | case2 ts h => rw [bracketPairs.eq_2 ts h]; rfl

theorem Ran.brackets {e d : Doc} (h : Ran (brackets e) ts d ts') :
    ∃ n, d = arrayOf e n ∧ ts = pairs n ++ ts' := by
  rw [Reader.brackets] at h
  obtain ⟨_, ts₁, hs, h₂⟩ := h.rest_bind.bind
  cases hs.skip
  obtain ⟨rfl, rfl⟩ := h₂.pure
  exact ⟨_, rfl, bracketPairs_eq⟩

theorem Reads.brackets {e : Doc} {n : Nat} (hr : ts.head? ≠ some (.mark "[")) :
    Reads (brackets e) (pairs n ++ ts) (arrayOf e n) ts := by
  have hn : bracketPairs (pairs n ++ ts) = n ∧ (pairs n ++ ts).drop (2 * n) = ts := by
    induction n with
    | zero =>
      refine ⟨bracketPairs.eq_2 ts ?_, rfl⟩
      rintro rest rfl
      exact hr rfl
    | succ n ih =>
      refine ⟨congrArg (· + 1) ih.1, ?_⟩
      rw [Nat.mul_succ]
      exact ih.2
  rw [Reader.brackets]
  refine .bind .rest ?_
  rw [hn.1]
  refine .bind (.skip _) ?_
  rw [hn.2]
  exact .pure

/-- Whether no built-in type is written by the word in front. -/
def Named (ts : List Token) : Prop :=
  ∀ w, ts.head? = some (.word w) → Primitive.ofKeyword? w = none ∧ w ≠ "var"

theorem named_of_ne (h : ∀ w, ts.head? ≠ some (.word w)) : Named ts :=
  fun w hw => absurd hw (h w)

theorem Ran.type {n : Nat} {d : Doc} (h : Ran (Reader.type (n + 1)) ts d ts') :
    (∃ p us, ts = .word (Primitive.keyword p) :: us
        ∧ Ran (Reader.brackets (plain (.primitiveType p) [] [])) us d ts')
      ∨ (∃ us, ts = .word "var" :: us ∧ Ran (Reader.brackets (plain .varType [] [])) us d ts')
      ∨ Named ts ∧ Ran (Reader.namedType n) ts d ts' := by
  rw [Reader.type] at h
  have h₁ := h.peek_bind
  cases ts with
  | nil => exact .inr (.inr ⟨named_of_ne (by simp), h₁⟩)
  | cons t us =>
    cases t with
    | word w =>
      dsimp only [List.head?_cons] at h₁
      cases hp : Primitive.ofKeyword? w with
      | some p =>
        rw [hp] at h₁
        exact .inl ⟨p, us, by rw [← Coded.code_of_ofCode? hp]; rfl, h₁.skip_bind⟩
      | none =>
        rw [hp] at h₁
        dsimp only at h₁
        split at h₁
        case isTrue hw => exact .inr (.inl ⟨us, by rw [hw], h₁.skip_bind⟩)
        case isFalse hw =>
          refine .inr (.inr ⟨?_, h₁⟩)
          rintro _ ⟨rfl⟩
          exact ⟨hp, hw⟩
    | _ => exact .inr (.inr ⟨named_of_ne (by simp), h₁⟩)

theorem Ran.namedType {n : Nat} {d : Doc} (h : Ran (Reader.namedType (n + 1)) ts d ts') :
    ∃ path ts₁, Ran Reader.qualifiedName ts path ts₁ ∧
      (ts₁.head? ≠ some (.mark "<") ∧ Ran (Reader.brackets (plain (.classType path false) [] [])) ts₁ d ts'
        ∨ (∃ ts₂ ts₃, ts₁ = .mark "<" :: ts₂ ∧ isAtClose ts₂ = true ∧ Ran Reader.closeAngle ts₂ () ts₃
          ∧ Ran (Reader.brackets (plain (.classType path true) [] [])) ts₃ d ts')
        ∨ ∃ ts₂ args ts₃ ts₄, ts₁ = .mark "<" :: ts₂ ∧ isAtClose ts₂ = false
          ∧ Ran (Reader.typeList n) ts₂ args ts₃ ∧ Ran Reader.closeAngle ts₃ () ts₄
          ∧ Ran (Reader.brackets (plain (.classType path false) [] args)) ts₄ d ts') := by
  rw [Reader.namedType] at h
  obtain ⟨path, ts₁, hp, h₁⟩ := h.bind
  refine ⟨path, ts₁, hp, ?_⟩
  obtain ⟨ts₂, rfl, h₂⟩ | ⟨hne, h₂⟩ := h₁.takes_ite
  · have h₃ := h₂.rest_bind
    cases hc : isAtClose ts₂ with
    | true =>
      rw [hc] at h₃
      obtain ⟨_, ts₃, hclose, h₄⟩ := h₃.bind
      exact .inr (.inl ⟨ts₂, ts₃, rfl, hc, hclose, h₄⟩)
    | false =>
      rw [hc] at h₃
      obtain ⟨args, ts₃, ha, h₄⟩ := h₃.bind
      obtain ⟨_, ts₄, hclose, h₅⟩ := h₄.bind
      exact .inr (.inr ⟨ts₂, args, ts₃, ts₄, rfl, hc, ha, hclose, h₅⟩)
  · exact .inl ⟨hne, h₂⟩

theorem Ran.typeList {n : Nat} {ds : List Doc} (h : Ran (Reader.typeList (n + 1)) ts ds ts') :
    ∃ d ts₁, Ran (Reader.type n) ts d ts₁ ∧
      ((∃ ts₂ more, ts₁ = .mark "," :: ts₂ ∧ Ran (Reader.typeList n) ts₂ more ts' ∧ ds = d :: more)
        ∨ ts' = ts₁ ∧ ds = [d]) := by
  rw [Reader.typeList] at h
  obtain ⟨d, ts₁, hd, h₁⟩ := h.bind
  refine ⟨d, ts₁, hd, ?_⟩
  obtain ⟨ts₂, rfl, h₂⟩ | ⟨hne, h₂⟩ := h₁.takes_ite
  · obtain ⟨more, hm, rfl⟩ := h₂.bind_pure
    exact .inl ⟨ts₂, more, rfl, hm, rfl⟩
  · obtain ⟨rfl, rfl⟩ := h₂.pure
    exact .inr ⟨rfl, rfl⟩

namespace Reads

variable {n : Nat} {d : Doc}

theorem type_primitive {p : Primitive} (h : Reads (Reader.brackets (plain (.primitiveType p) [] [])) ts d ts') :
    Reads (Reader.type (n + 1)) (.word p.keyword :: ts) d ts' := by
  rw [Reader.type]
  refine .bind .peek ?_
  dsimp only [List.head?_cons]
  have hp : Primitive.ofKeyword? p.keyword = some p := by cases p <;> decide
  rw [hp]
  exact .bind .skip_one h

theorem type_var (h : Reads (Reader.brackets (plain .varType [] [])) ts d ts') :
    Reads (Reader.type (n + 1)) (.word "var" :: ts) d ts' := by
  rw [Reader.type]
  exact .bind .peek (.bind .skip_one h)

theorem type_named (hn : Named ts) (h : Reads (Reader.namedType n) ts d ts') :
    Reads (Reader.type (n + 1)) ts d ts' := by
  rw [Reader.type]
  refine .bind .peek ?_
  cases ts with
  | nil => exact h
  | cons t us =>
    cases t with
    | word w =>
      obtain ⟨hp, hw⟩ := hn w rfl
      dsimp only [List.head?_cons]
      rw [hp]
      dsimp only
      rw [if_neg hw]
      exact h
    | _ => exact h

variable {path : String} {ts₁ ts₂ ts₃ : List Token}

theorem namedType_plain (hp : Reads Reader.qualifiedName ts path ts₁)
    (hne : ts₁.head? ≠ some (.mark "<"))
    (h : Reads (Reader.brackets (plain (.classType path false) [] [])) ts₁ d ts') :
    Reads (Reader.namedType (n + 1)) ts d ts' := by
  rw [Reader.namedType]
  exact .bind hp (.bind (.leaves hne) h)

theorem namedType_diamond (hp : Reads Reader.qualifiedName ts path (.mark "<" :: ts₁))
    (hc : isAtClose ts₁ = true) (hclose : Reads Reader.closeAngle ts₁ () ts₂)
    (h : Reads (Reader.brackets (plain (.classType path true) [] [])) ts₂ d ts') :
    Reads (Reader.namedType (n + 1)) ts d ts' := by
  rw [Reader.namedType]
  refine .bind hp (.bind .takes (.bind .rest ?_))
  rw [hc]
  exact .bind hclose h

theorem namedType_args {args : List Doc}
    (hp : Reads Reader.qualifiedName ts path (.mark "<" :: ts₁)) (hc : isAtClose ts₁ = false)
    (ha : Reads (Reader.typeList n) ts₁ args ts₂) (hclose : Reads Reader.closeAngle ts₂ () ts₃)
    (h : Reads (Reader.brackets (plain (.classType path false) [] args)) ts₃ d ts') :
    Reads (Reader.namedType (n + 1)) ts d ts' := by
  rw [Reader.namedType]
  refine .bind hp (.bind .takes (.bind .rest ?_))
  rw [hc]
  exact .bind ha (.bind hclose h)

theorem typeList_last (hd : Reads (Reader.type n) ts d ts') (hne : ts'.head? ≠ some (.mark ",")) :
    Reads (Reader.typeList (n + 1)) ts [d] ts' := by
  rw [Reader.typeList]
  exact .bind hd (.bind (.leaves hne) .pure)

theorem typeList_more {ds : List Doc} (hd : Reads (Reader.type n) ts d (.mark "," :: ts₁))
    (hs : Reads (Reader.typeList n) ts₁ ds ts') : Reads (Reader.typeList (n + 1)) ts (d :: ds) ts' := by
  rw [Reader.typeList]
  exact .bind hd (.bind .takes (.bind hs .pure))

end Reads

open Lookahead (afterAngles)

/-- Tokens that do not belong to a type before them, which ended before `ts'` when it was read. -/
def EndsType (ts' rest : List Token) : Prop :=
  rest.head? ≠ some (.mark ".") ∧ rest.head? ≠ some (.mark "[")
    ∧ (rest.head? = some (.mark "<") → ts'.head? = some (.mark "<"))

/-- What is known of a type that was read: what it is, that looking ahead passes over it, and that it is
read again from its own tokens, with so many calls to spare. -/
structure TypeRead (r : Nat → Reader Doc) (spare : Nat) (ts : List Token) (d : Doc)
    (ts' : List Token) : Prop where
  formed : Formed .type d
  lexed : AllLexed ts'
  head : ts.head? = d.tokens.head?
  depth : ∀ k ≥ 1, afterAngles k ts = afterAngles k ts'
  again : ∀ g closing rest, 10 * weightOf (d.tokensThen closing) + spare ≤ g →
    (closing = 0 → EndsType ts' rest) →
    ∃ cl, Closing closing cl ∧ Reads (r g) (d.tokensThen closing ++ rest) d (cl ++ rest)

/-- What is known of types in angle brackets. -/
structure TypesRead (n : Nat) (ts : List Token) (ds : List Doc) (ts' : List Token) : Prop where
  formed : ∀ d ∈ ds, Formed .type d
  ne_nil : ds ≠ []
  lexed : AllLexed ts'
  depth : ∀ k ≥ 1, afterAngles k ts = afterAngles k ts'
  again : ∀ g closing rest, 10 * weightOf (tokensOfArgs (closing + 1) ds) + 3 ≤ g →
    ∃ cl, Closing (closing + 1) cl
      ∧ Reads (typeList g) (tokensOfArgs (closing + 1) ds ++ rest) ds (cl ++ rest)

/-- Closing brackets and what ends a type before them do not go on with a pair of brackets. -/
theorem Closing_head {closing : Nat} {cl rest : List Token} (hcl : Closing closing cl)
    (hr : closing = 0 → EndsType ts' rest) :
    (cl ++ rest).head? ≠ some (.mark ".") ∧ (cl ++ rest).head? ≠ some (.mark "[")
      ∧ ((cl ++ rest).head? = some (.mark "<") → closing = 0 ∧ ts'.head? = some (.mark "<")) := by
  cases hcl with
  | none => exact ⟨(hr rfl).1, (hr rfl).2.1, fun h => ⟨rfl, (hr rfl).2.2 h⟩⟩
  | _ => exact ⟨by simp, by simp, by simp⟩

theorem isAtClose_closing {n : Nat} {cl rest : List Token} (h : Closing (n + 1) cl) :
    isAtClose (cl ++ rest) = true := by
  cases h <;> rfl

theorem depth_closeAngle (h : Ran closeAngle ts () ts') {k : Int} (hk : 1 ≤ k) :
    afterAngles (k + 1) ts = afterAngles k ts' := by
  rcases h.closeAngle with rfl | ⟨us, rfl, rfl⟩ | ⟨us, rfl, rfl⟩
  · rw [Lookahead.afterAngles_cons (d := -1) rfl, if_neg (by omega), Int.add_neg_cancel_right]
  · rw [Lookahead.afterAngles_cons (d := -2) rfl, Lookahead.afterAngles_cons (d := -1) rfl]
    simp only [show k + 1 + -2 = k + -1 by omega]
  · rw [Lookahead.afterAngles_cons (d := -3) rfl, Lookahead.afterAngles_cons (d := -2) rfl]
    simp only [show k + 1 + -3 = k + -2 by omega]

theorem lexed_closeAngle (h : Ran closeAngle ts () ts') (hl : AllLexed ts) : AllLexed ts' := by
  rcases h.closeAngle with rfl | ⟨us, rfl, rfl⟩ | ⟨us, rfl, rfl⟩
  · exact hl.tail
  · exact List.forall_mem_cons.mpr ⟨by decide, hl.tail⟩
  · exact List.forall_mem_cons.mpr ⟨by decide, hl.tail⟩

/-- A type whose closing brackets all stand behind its pairs of brackets. -/
theorem again_plain {e : Doc} {us : List Token} {m closing : Nat} {rest : List Token}
    (he : ∀ closing, e.tokensThen closing = us ++ closers closing) (hr : closing = 0 → EndsType ts' rest) :
    (arrayOf e m).tokensThen closing ++ rest = us ++ (pairs m ++ (closers closing ++ rest))
      ∧ Reads (brackets e) (pairs m ++ (closers closing ++ rest)) (arrayOf e m)
        (closers closing ++ rest) := by
  refine ⟨?_, .brackets (Closing_head (Token.closing_closers closing) hr).2.1⟩
  rw [Doc.tokensThen_arrayOf_of he, List.append_assoc, List.append_assoc]

/-- A type of one word. -/
theorem TypeRead.of_word {us : List Token} {w : String} {e d : Doc} (hl : AllLexed (.word w :: us))
    (h : Ran (brackets e) us d ts') (he : Formed .type e)
    (htokens : ∀ closing, e.tokensThen closing = [Token.word w] ++ closers closing)
    (hreads : ∀ {g ts d ts'}, Reads (brackets e) ts d ts' → Reads (type (g + 1)) (.word w :: ts) d ts') :
    TypeRead type 2 (.word w :: us) d ts' := by
  obtain ⟨m, rfl, rfl⟩ := h.brackets
  refine ⟨.arrayOf he m, hl.tail.right, ?_, fun k hk => ?_, fun g closing rest hg hr => ?_⟩
  · rw [he.head_arrayOf, Doc.tokens, htokens]
    rfl
  · rw [Lookahead.afterAngles_pass rfl hk, Lookahead.afterAngles_pairs hk]
  · obtain ⟨h₁, h₂⟩ := again_plain (m := m) htokens hr
    obtain ⟨g, rfl⟩ : ∃ g', g = g' + 1 := ⟨g - 1, by omega⟩
    refine ⟨_, Token.closing_closers _, ?_⟩
    rw [h₁]
    exact hreads h₂

theorem TypeRead.of_named {d : Doc} (hn : Named ts) (h : TypeRead namedType 1 ts d ts') :
    TypeRead type 2 ts d ts' := by
  refine ⟨h.formed, h.lexed, h.head, h.depth, fun g closing rest hg hr => ?_⟩
  obtain ⟨g, rfl⟩ : ∃ g', g = g' + 1 := ⟨g - 1, by omega⟩
  obtain ⟨cl, hcl, hreads⟩ := h.again g closing rest (by omega) hr
  refine ⟨cl, hcl, .type_named (fun w hw => hn w ?_) hreads⟩
  obtain ⟨v, hv⟩ := h.formed.leads
  obtain ⟨us, hv⟩ := hv closing
  rw [h.head, ← h.formed.head_tokensThen closing]
  rw [hv] at hw ⊢
  exact hw

theorem TypeRead.of_path {path : String} {d : Doc} {ts₁ : List Token} (hl : AllLexed (ofPath path ++ ts₁))
    (hp : IsPath path) (hne : ts₁.head? ≠ some (.mark "<"))
    (h : Ran (brackets (plain (.classType path false) [] [])) ts₁ d ts') :
    TypeRead namedType 1 (ofPath path ++ ts₁) d ts' := by
  obtain ⟨m, rfl, rfl⟩ := h.brackets
  have htokens : ∀ closing, (plain (.classType path false) [] []).tokensThen closing
      = ofPath path ++ closers closing := fun _ => rfl
  have hf : Formed .type (plain (.classType path false) [] []) := .classType hp (by simp)
  refine ⟨.arrayOf hf m, hl.right.right, ?_, fun k hk => ?_, fun g closing rest hg hr => ?_⟩
  · obtain ⟨w, us, hw⟩ := hp.ofPath_eq_cons
    rw [hf.head_arrayOf, Doc.tokens, htokens, hw]
    rfl
  · rw [Lookahead.afterAngles_path hp hk, Lookahead.afterAngles_pairs hk]
  · obtain ⟨h₁, h₂⟩ := again_plain (m := m) htokens hr
    obtain ⟨g, rfl⟩ : ∃ g', g = g' + 1 := ⟨g - 1, by omega⟩
    refine ⟨_, Token.closing_closers _, ?_⟩
    rw [h₁]
    have hhead := Closing_head (Token.closing_closers closing) hr
    -- the bracket of a list of types would have been read the first time
    refine .namedType_plain (.qualifiedName hp ?_) ?_ h₂
    · cases m with
      | zero => exact hhead.1
      | succ m => simp [pairs]
    · cases m with
      | zero => exact fun h => hne (hhead.2.2 h).2
      | succ m => simp [pairs]

/-- A type with something in angle brackets, which is `inner` with the brackets that close it. -/
theorem TypeRead.of_angles {path : String} {e d : Doc} {ts₁ ts₂ : List Token}
    (inner : Nat → List Token) (hp : IsPath path) (he : Formed .type e)
    (htokens : ∀ closing, e.tokensThen closing = ofPath path ++ Token.mark "<" :: inner (closing + 1))
    (hdepth : ∀ k ≥ 1, afterAngles k ts₁ = afterAngles k ts₂) (hl : AllLexed ts₂)
    (h : Ran (brackets e) ts₂ d ts')
    (hreads : ∀ g closing rest, 10 * weightOf (inner (closing + 1)) + 3 ≤ g →
      ∃ cl, Closing closing cl ∧ ∀ {d us}, Reads (brackets e) (cl ++ rest) d us →
        Reads (namedType (g + 1)) (ofPath path ++ Token.mark "<" :: (inner (closing + 1) ++ rest)) d us) :
    TypeRead namedType 1 (ofPath path ++ ts₁) d ts' := by
  obtain ⟨m, rfl, rfl⟩ := h.brackets
  refine ⟨.arrayOf he m, hl.right, ?_, fun k hk => ?_, fun g closing rest hg hr => ?_⟩
  · obtain ⟨w, us, hw⟩ := hp.ofPath_eq_cons
    rw [he.head_arrayOf, Doc.tokens, htokens, hw]
    rfl
  · rw [Lookahead.afterAngles_path hp hk, hdepth k hk, Lookahead.afterAngles_pairs hk]
  · obtain ⟨g, rfl⟩ : ∃ g', g = g' + 1 := ⟨g - 1, by omega⟩
    cases m with
    | zero =>
      rw [arrayOf, htokens, Token.weightOf_append, Token.weightOf_cons] at hg
      have := Token.one_le_weight (.mark "<")
      obtain ⟨cl, hcl, h⟩ := hreads g closing rest (by omega)
      refine ⟨cl, hcl, ?_⟩
      rw [arrayOf, htokens, List.append_assoc]
      exact h (Reads.brackets (n := 0) (Closing_head hcl hr).2.1)
    | succ m =>
      rw [Doc.tokensThen_arrayOf, Doc.tokens, htokens, List.append_assoc, Token.weightOf_append,
        List.cons_append, Token.weightOf_cons, Token.weightOf_append] at hg
      have := Token.one_le_weight (.mark "<")
      obtain ⟨cl, hcl, h⟩ := hreads g 0 (pairs (m + 1) ++ (closers closing ++ rest)) (by omega)
      refine ⟨closers closing, Token.closing_closers closing, ?_⟩
      rw [Doc.tokensThen_arrayOf, Doc.tokens, htokens, List.append_assoc, List.append_assoc,
        List.cons_append, List.append_assoc]
      refine h ?_
      rw [hcl.eq_nil]
      exact Reads.brackets (Closing_head (Token.closing_closers closing) hr).2.1

theorem TypesRead.cons {n : Nat} {d : Doc} {more : List Doc} {ts₂ : List Token}
    (hd : TypeRead type 2 ts d (.mark "," :: ts₂)) (hm : TypesRead n ts₂ more ts') :
    TypesRead (n + 1) ts (d :: more) ts' := by
  refine ⟨List.forall_mem_cons.mpr ⟨hd.formed, hm.formed⟩, List.cons_ne_nil _ _, hm.lexed,
    fun k hk => ?_, fun g closing rest hg => ?_⟩
  · rw [hd.depth k hk, Lookahead.afterAngles_pass rfl hk, hm.depth k hk]
  · obtain ⟨e, es, rfl⟩ := List.exists_cons_of_ne_nil hm.ne_nil
    have htokens : tokensOfArgs (closing + 1) (d :: e :: es)
        = d.tokensThen 0 ++ Token.mark "," :: tokensOfArgs (closing + 1) (e :: es) := rfl
    rw [htokens] at hg ⊢
    rw [Token.weightOf_append, Token.weightOf_cons] at hg
    obtain ⟨g, rfl⟩ : ∃ g', g = g' + 1 := ⟨g - 1, by omega⟩
    obtain ⟨cl, hcl, hfirst⟩ := hd.again g 0
      (.mark "," :: (tokensOfArgs (closing + 1) (e :: es) ++ rest)) (by omega)
      fun _ => ⟨by simp, by simp, by simp⟩
    obtain ⟨cl', hcl', hrest⟩ := hm.again g closing rest
      (by have := Token.one_le_weight (.mark ","); omega)
    refine ⟨cl', hcl', ?_⟩
    rw [hcl.eq_nil] at hfirst
    rw [List.append_assoc]
    exact .typeList_more hfirst hrest

theorem TypesRead.single {n : Nat} {d : Doc} (hd : TypeRead type 2 ts d ts') :
    TypesRead (n + 1) ts [d] ts' := by
  refine ⟨by simpa using hd.formed, List.cons_ne_nil _ _, hd.lexed, hd.depth,
    fun g closing rest hg => ?_⟩
  have htokens : tokensOfArgs (closing + 1) [d] = d.tokensThen (closing + 1) := rfl
  rw [htokens] at hg ⊢
  obtain ⟨g, rfl⟩ : ∃ g', g = g' + 1 := ⟨g - 1, by omega⟩
  obtain ⟨cl, hcl, h⟩ := hd.again g (closing + 1) rest (by omega) nofun
  refine ⟨cl, hcl, .typeList_last h ?_⟩
  cases hcl <;> simp

theorem typesRead (n : Nat) :
    (∀ {ts d ts'}, AllLexed ts → Ran (type n) ts d ts' → TypeRead type 2 ts d ts')
      ∧ (∀ {ts d ts'}, AllLexed ts → Ran (namedType n) ts d ts' → TypeRead namedType 1 ts d ts')
      ∧ (∀ {ts ds ts'}, AllLexed ts → Ran (typeList n) ts ds ts' → TypesRead n ts ds ts') := by
  induction n with
  | zero =>
    refine ⟨fun _ h => ?_, fun _ h => ?_, fun _ h => ?_⟩
    · rw [type] at h; exact h.exhausted.elim
    · rw [namedType] at h; exact h.exhausted.elim
    · rw [typeList] at h; exact h.exhausted.elim
  | succ n ih =>
    obtain ⟨ihType, ihNamed, ihList⟩ := ih
    refine ⟨fun hl h => ?_, fun hl h => ?_, fun hl h => ?_⟩
    · rcases h.type with ⟨p, us, rfl, h₁⟩ | ⟨us, rfl, h₁⟩ | ⟨hn, h₁⟩
      · exact .of_word hl h₁ .primitiveType (fun _ => rfl) .type_primitive
      · exact .of_word hl h₁ .varType (fun _ => rfl) .type_var
      · exact .of_named hn (ihNamed hl h₁)
    · obtain ⟨path, ts₁, hq, h₁⟩ := h.namedType
      obtain ⟨hp, rfl⟩ := hq.qualifiedName hl
      rcases h₁ with ⟨hne, h₁⟩ | ⟨ts₂, ts₃, rfl, hc, hclose, h₁⟩
        | ⟨ts₂, args, ts₃, ts₄, rfl, hc, ha, hclose, h₁⟩
      · exact .of_path hl hp hne h₁
      · have hl₃ := lexed_closeAngle hclose hl.right.tail
        refine .of_angles closers hp (.diamond hp) (fun _ => rfl) (fun k hk => ?_) hl₃ h₁
          fun g closing rest hg => ?_
        · rw [Lookahead.afterAngles_open (by omega), depth_closeAngle hclose hk]
        · obtain ⟨cl, hcl, hr⟩ := Reads.closeAngle (Token.closing_closers (closing + 1))
          exact ⟨cl, hcl, fun h => .namedType_diamond (.qualifiedName hp (by simp))
            (isAtClose_closing (Token.closing_closers (closing + 1))) (hr rest) h⟩
      · have hargs := ihList hl.right.tail ha
        have hl₄ := lexed_closeAngle hclose hargs.lexed
        obtain ⟨a, args, rfl⟩ := List.exists_cons_of_ne_nil hargs.ne_nil
        refine .of_angles (tokensOfArgs · (a :: args)) hp (.classType hp hargs.formed) (fun _ => ?_) (fun k hk => ?_) hl₄ h₁
          fun g closing rest hg => ?_
        · rw [plain, Doc.tokensThen_node]
          rfl
        · rw [Lookahead.afterAngles_open (by omega), hargs.depth _ (by omega),
            depth_closeAngle hclose hk]
        · obtain ⟨cl, hcl, hr⟩ := hargs.again g closing rest hg
          obtain ⟨cl', hcl', hr'⟩ := Reads.closeAngle hcl
          obtain ⟨w, us, hw⟩ := Doc.leads_args (hargs.formed a List.mem_cons_self) args (closing + 1)
          refine ⟨cl', hcl', fun h => .namedType_args (.qualifiedName hp (by simp)) ?_ hr (hr' rest) h⟩
          rw [hw]
          rfl
    · obtain ⟨d, ts₁, hd, h₁⟩ := h.typeList
      rcases h₁ with ⟨ts₂, more, rfl, hm, rfl⟩ | ⟨rfl, rfl⟩
      · exact .cons (ihType hl hd) (ihList (ihType hl hd).lexed.tail hm)
      · exact .single (ihType hl hd)

theorem TypeRead.reads {d : Doc} {rest : List Token} {g : Nat} (h : TypeRead type 2 ts d ts')
    (hr : EndsType ts' rest) (hg : 10 * weightOf d.tokens + 2 ≤ g) :
    Reads (type g) (d.tokens ++ rest) d rest := by
  obtain ⟨cl, hcl, h⟩ := h.again g 0 rest hg fun _ => hr
  rwa [hcl.eq_nil] at h

/-- A type that was read up to a closing parenthesis is one that looking ahead passes over. -/
theorem afterType_ran {n : Nat} {d : Doc} {us : List Token} (hl : AllLexed ts)
    (h : Ran (type n) ts d (.mark ")" :: us)) : Lookahead.afterType? ts = some (.mark ")" :: us) := by
  have after (m : Nat) : Lookahead.afterBrackets (pairs m ++ Token.mark ")" :: us) = Token.mark ")" :: us := by
    rw [Lookahead.afterBrackets_pairs, Lookahead.afterBrackets_other (by simp)]
  have tail (m : Nat) : Lookahead.typeTail (pairs m ++ Token.mark ")" :: us) = some (Token.mark ")" :: us) := by
    rw [Lookahead.typeTail_other, after] <;> cases m <;> simp [pairs]
  have angle {ts₁ ts₂ : List Token} {e : Doc} (hc : Ran closeAngle ts₁ () ts₂)
      (hb : Ran (brackets e) ts₂ d (.mark ")" :: us)) :
      (Lookahead.afterAngles 1 ts₁).map Lookahead.afterBrackets = some (.mark ")" :: us) := by
    obtain ⟨m, -, rfl⟩ := hb.brackets
    rcases hc.closeAngle with rfl | ⟨vs, rfl, h⟩ | ⟨vs, rfl, h⟩
    · rw [Lookahead.afterAngles_cons (d := -1) rfl, if_pos (by decide), Option.map_some, after]
    · cases m <;> simp [pairs] at h
    · cases m <;> simp [pairs] at h
  cases n with
  | zero => rw [type] at h; exact h.exhausted.elim
  | succ n =>
    rcases h.type with ⟨p, vs, rfl, h₁⟩ | ⟨vs, rfl, h₁⟩ | ⟨_, h₁⟩
    · obtain ⟨m, -, rfl⟩ := h₁.brackets
      rw [Lookahead.afterType_primitive, tail]
    · obtain ⟨m, -, rfl⟩ := h₁.brackets
      rw [Lookahead.afterType_word]
      exact tail m
    · cases n with
      | zero => rw [namedType] at h₁; exact h₁.exhausted.elim
      | succ n =>
        obtain ⟨path, ts₁, hq, h₂⟩ := h₁.namedType
        obtain ⟨hp, rfl⟩ := hq.qualifiedName hl
        rw [Lookahead.afterType_path hp]
        rcases h₂ with ⟨_, hb⟩ | ⟨ts₂, ts₃, rfl, _, hc, hb⟩ | ⟨ts₂, args, ts₃, ts₄, rfl, _, ha, hc, hb⟩
        · obtain ⟨m, -, rfl⟩ := hb.brackets
          exact tail m
        · rw [Lookahead.typeTail_angle, angle hc hb]
        · rw [Lookahead.typeTail_angle, ((typesRead n).2.2 hl.right.tail ha).depth 1 (by decide),
            angle hc hb]

end Reader

end TreeTidy
