import TreeTidy.Proofs.Source.Formed
/-!
What looking ahead sees of types: a type in angle brackets is passed over as a whole, and after a type
that stands in front is what follows it.
-/
namespace TreeTidy.Lookahead

open Token (Closing closers pairs pointed ofPath)

variable {ts rest : List Token} {t : Token} {k d : Int}

theorem afterAngles_cons (h : angleDepth t = some d) :
    afterAngles k (t :: ts) = if k + d ≤ 0 then some ts else afterAngles (k + d) ts := by
  rw [afterAngles, h]

theorem afterAngles_none (h : angleDepth t = none) : afterAngles k (t :: ts) = none := by
  rw [afterAngles, h]

theorem afterAngles_pass (h : angleDepth t = some 0) (hk : 1 ≤ k) :
    afterAngles k (t :: ts) = afterAngles k ts := by
  rw [afterAngles_cons h, if_neg (by omega), Int.add_zero]

theorem afterAngles_open (hk : 0 ≤ k) :
    afterAngles k (.mark "<" :: ts) = afterAngles (k + 1) ts := by
  rw [afterAngles_cons (d := 1) rfl, if_neg (by omega)]

theorem afterAngles_pairs (hk : 1 ≤ k) (n : Nat) : afterAngles k (pairs n ++ ts) = afterAngles k ts := by
  induction n with
  | zero => rfl
  | succ n ih =>
    change afterAngles k (.mark "[" :: .mark "]" :: (pairs n ++ ts)) = _
    rw [afterAngles_pass rfl hk, afterAngles_pass rfl hk, ih]

theorem afterAngles_path {path : String} (hp : IsPath path) (hk : 1 ≤ k) :
    afterAngles k (ofPath path ++ ts) = afterAngles k ts := by
  obtain ⟨first, parts, hn, rfl⟩ := hp
  have points : ∀ parts, afterAngles k (pointed parts ++ ts) = afterAngles k ts := by
    intro parts
    induction parts with
    | nil => rfl
    | cons n parts ih =>
      change afterAngles k (.mark "." :: .word n :: (pointed parts ++ ts)) = _
      rw [afterAngles_pass rfl hk, afterAngles_pass rfl hk, ih]
  rw [ofPath_intercalate hn, Token.ofParts_cons, List.cons_append, afterAngles_pass rfl hk, points]

/-- However closing brackets are put together, they bring the depth down by their number. -/
theorem afterAngles_closing {n : Nat} {cl : List Token} (h : Closing n cl) (hk : 1 ≤ k) (hn : n ≤ k) :
    afterAngles k (cl ++ ts) = if k = n then some ts else afterAngles (k - n) ts := by
  have step : ∀ {t : Token} {w n : Nat} {cl : List Token}, angleDepth t = some (-(w : Int)) → Closing n cl →
      (∀ {k : Int}, 1 ≤ k → n ≤ k →
        afterAngles k (cl ++ ts) = if k = n then some ts else afterAngles (k - n) ts) →
      ∀ {k : Int}, 1 ≤ k → ((n + w : Nat) : Int) ≤ k → afterAngles k (t :: cl ++ ts)
        = if k = (n + w : Nat) then some ts else afterAngles (k - (n + w : Nat)) ts := by
    intro t w n cl ht h ih k hk hn
    rw [List.cons_append, afterAngles_cons ht]
    push_cast at hn ⊢
    split
    case isTrue hle =>
      obtain rfl : n = 0 := by omega
      rw [h.eq_nil, if_pos (by omega)]
      rfl
    case isFalse hle =>
      rw [ih (by omega) (by omega)]
      simp only [show (k + -(w : Int) = n) = (k = n + w) by grind,
        show k + -(w : Int) - n = k - (n + w) by omega]
  induction h generalizing k with
  | none =>
    rw [if_neg (by simp; omega)]
    simp
  | one h ih => exact step (w := 1) rfl h ih hk hn
  | two h ih => exact step (w := 2) rfl h ih hk hn
  | three h ih => exact step (w := 3) rfl h ih hk hn

theorem afterAngles_args {args : List Doc}
    (ih : ∀ a ∈ args, ∀ {k : Int} {n : Nat} {rest : List Token}, 1 ≤ k → n ≤ k →
      afterAngles k (a.tokensThen n ++ rest)
        = if k = n then some rest else afterAngles (k - n) rest)
    (hne : args ≠ []) {n : Nat} (hk : 1 ≤ k) (hn : n ≤ k) :
    afterAngles k (Doc.tokensOfArgs n args ++ rest)
      = if k = n then some rest else afterAngles (k - n) rest := by
  induction args with
  | nil => exact absurd rfl hne
  | cons a args more =>
    have ha := @ih a List.mem_cons_self
    cases args with
    | nil => exact ha hk hn
    | cons b args =>
      have hb := more (fun b hb => ih b (List.mem_cons_of_mem _ hb)) (List.cons_ne_nil _ _)
      change afterAngles k
        ((a.tokensThen 0 ++ Token.mark "," :: Doc.tokensOfArgs n (b :: args)) ++ rest) = _
      rw [List.append_assoc, ha hk (by simp; omega), if_neg (by simp; omega)]
      change afterAngles (k - 0) (.mark "," :: (Doc.tokensOfArgs n (b :: args) ++ rest)) = _
      rw [Int.sub_zero, afterAngles_pass rfl hk]
      exact hb

/-- A type in angle brackets is passed over, and so are brackets that close after it. -/
theorem afterAngles_type {form : Form} {d : Doc} (h : d.Formed form) (hf : form = .type) {n : Nat}
    (hk : 1 ≤ k) (hn : n ≤ k) : afterAngles k (d.tokensThen n ++ rest)
      = if k = n then some rest else afterAngles (k - n) rest := by
  induction h generalizing k n rest with
  | primitiveType =>
    exact (afterAngles_pass rfl hk).trans (afterAngles_closing (Token.closing_closers n) hk hn)
  | varType =>
    exact (afterAngles_pass rfl hk).trans (afterAngles_closing (Token.closing_closers n) hk hn)
  | @classType path args hp ha ih =>
    rw [Doc.plain, Doc.tokensThen_node]
    cases args with
    | nil =>
      change afterAngles k ((ofPath path ++ closers n) ++ rest) = _
      rw [List.append_assoc, afterAngles_path hp hk]
      exact afterAngles_closing (Token.closing_closers n) hk hn
    | cons a args =>
      change afterAngles k ((ofPath path ++ Token.mark "<" :: Doc.tokensOfArgs (n + 1) (a :: args)) ++ rest) = _
      rw [List.append_assoc, afterAngles_path hp hk, List.cons_append, afterAngles_open (by omega),
        afterAngles_args (fun a ha _ _ _ => ih a ha rfl) (List.cons_ne_nil _ _) (by omega)
          (by push_cast; omega)]
      simp only [show (k + 1 = ((n + 1 : Nat) : Int)) = (k = n) by grind,
        show k + 1 - ((n + 1 : Nat) : Int) = k - n by omega]
  | @diamond path hp =>
    change afterAngles k ((ofPath path ++ Token.mark "<" :: closers (n + 1)) ++ rest) = _
    rw [List.append_assoc, afterAngles_path hp hk, List.cons_append, afterAngles_open (by omega),
      afterAngles_closing (Token.closing_closers _) (by omega) (by push_cast; omega)]
    simp only [show (k + 1 = ((n + 1 : Nat) : Int)) = (k = n) by grind,
      show k + 1 - ((n + 1 : Nat) : Int) = k - n by omega]
  | @arrayType e h ih =>
    change afterAngles k ((e.tokensThen 0 ++ Token.mark "[" :: Token.mark "]" :: closers n) ++ rest) = _
    rw [List.append_assoc, ih rfl hk (by simp; omega), if_neg (by simp; omega)]
    change afterAngles (k - 0) (.mark "[" :: .mark "]" :: (closers n ++ rest)) = _
    rw [Int.sub_zero, afterAngles_pass rfl hk, afterAngles_pass rfl hk]
    exact afterAngles_closing (Token.closing_closers n) hk hn
  | _ => cases hf

/-- The tokens after those in angle brackets, if some follow. -/
def afterArgs : List Token → Option (List Token)
  | .mark "<" :: ts => afterAngles 0 (.mark "<" :: ts)
  | ts => some ts

/-- What is left after the rest of a type, behind its first word. -/
def typeTail (ts : List Token) : Option (List Token) :=
  ((afterNameTail ts).bind afterArgs).map afterBrackets

theorem afterType_word (w : String) : afterType? (.word w :: ts)
    = if Reader.isKeyword w && w != "var" then none else typeTail ts := by
  rw [afterType?, typeTail]
  split
  · rfl
  · cases afterNameTail ts with
    | none => rfl
    | some rest =>
      change (match rest with
        | .mark "<" :: _ => (afterAngles 0 rest).bind _
        | _ => (some rest).bind _) = (afterArgs rest).map afterBrackets
      unfold afterArgs
      split
      · exact (Option.map_eq_bind ..).symm
      · rfl

theorem typeTail_point {w : String} (hw : Reader.isKeyword w = false) :
    typeTail (.mark "." :: .word w :: ts) = typeTail ts := by
  rw [typeTail, afterNameTail, hw]
  rfl

theorem typeTail_pointed {parts : List String} (hp : ∀ w ∈ parts, Reader.isKeyword w = false) :
    typeTail (pointed parts ++ ts) = typeTail ts := by
  induction parts with
  | nil => rfl
  | cons n parts ih =>
    rw [← ih fun w hw => hp w (List.mem_cons_of_mem _ hw)]
    exact typeTail_point (hp n List.mem_cons_self)

theorem typeTail_angle : typeTail (.mark "<" :: ts) = (afterAngles 1 ts).map afterBrackets := by
  change (afterAngles 0 (.mark "<" :: ts)).map afterBrackets = _
  rw [afterAngles_open (Int.le_refl 0)]
  rfl

theorem typeTail_other (hp : ts.head? ≠ some (.mark ".")) (ha : ts.head? ≠ some (.mark "<")) :
    typeTail ts = some (afterBrackets ts) := by
  have hn : afterNameTail ts = some ts := by
    rw [afterNameTail]
    · rintro w rest rfl
      exact hp rfl
    · rintro rest rfl
      exact hp rfl
  have ha : afterArgs ts = some ts := by
    rw [afterArgs]
    rintro rest rfl
    exact ha rfl
  rw [typeTail, hn, Option.bind_some, ha, Option.map_some]

theorem afterBrackets_other (h : ts.head? ≠ some (.mark "[")) : afterBrackets ts = ts := by
  rw [afterBrackets]
  rintro rest rfl
  exact h rfl

theorem afterBrackets_pairs (n : Nat) : afterBrackets (pairs n ++ ts) = afterBrackets ts := by
  induction n with
  | zero => rfl
  | succ n ih => exact ih

theorem afterType_path {path : String} (hp : IsPath path) (ts : List Token) :
    afterType? (ofPath path ++ ts) = typeTail ts := by
  obtain ⟨first, parts, hn, rfl⟩ := hp
  rw [ofPath_intercalate hn, Token.ofParts_cons, List.cons_append, afterType_word,
    (hn first List.mem_cons_self).2, typeTail_pointed fun w hw => (hn w (List.mem_cons_of_mem _ hw)).2]
  rfl

theorem afterType_primitive (p : Primitive) (ts : List Token) :
    afterType? (.word p.keyword :: ts) = typeTail ts := by
  have hk : Reader.isKeyword p.keyword = false := by cases p <;> decide
  rw [afterType_word, hk]
  rfl

/-- After a type in front is what follows it, brackets apart. -/
theorem afterType_type {form : Form} {d : Doc} (h : d.Formed form) (hf : form = .type)
    (hp : rest.head? ≠ some (.mark ".")) (ha : rest.head? ≠ some (.mark "<")) :
    afterType? (d.tokens ++ rest) = some (afterBrackets rest) := by
  induction h generalizing rest with
  | @primitiveType p =>
    change afterType? (.word p.keyword :: rest) = _
    rw [afterType_primitive, typeTail_other hp ha]
  | varType =>
    change afterType? (.word "var" :: rest) = _
    rw [afterType_word, ← typeTail_other hp ha]
    rfl
  | @classType p args hpath hargs _ =>
    rw [Doc.tokens, Doc.plain, Doc.tokensThen_node]
    cases args with
    | nil =>
      change afterType? ((ofPath p ++ []) ++ rest) = _
      rw [List.append_nil, afterType_path hpath, typeTail_other hp ha]
    | cons a args =>
      change afterType? ((ofPath p ++ Token.mark "<" :: Doc.tokensOfArgs 1 (a :: args)) ++ rest) = _
      rw [List.append_assoc, afterType_path hpath, List.cons_append, typeTail_angle,
        afterAngles_args (fun a ha _ _ _ => afterAngles_type (hargs a ha) rfl) (List.cons_ne_nil _ _)
          (by decide) (by decide)]
      rfl
  | @diamond p hpath =>
    change afterType? ((ofPath p ++ Token.mark "<" :: closers 1) ++ rest) = _
    rw [List.append_assoc, afterType_path hpath]
    exact typeTail_angle
  | @arrayType e _ ih =>
    change afterType? ((e.tokens ++ [Token.mark "[", Token.mark "]"]) ++ rest) = _
    rw [List.append_assoc, ih rfl (by simp) (by simp)]
    rfl
  | _ => cases hf

end TreeTidy.Lookahead
