import TreeTidy.Proofs.Source.RereadTypes
/-!
How readers come to an end. A reader that is given fuel for the tokens in front of it says what it wanted
at a place among them, or goes on to tokens that weigh less; so the fuel for the tokens that are left is
at hand for the next one.
-/
namespace TreeTidy

namespace Token

theorem weightOf_drop_add_le {n : Nat} {ts : List Token} (hn : n ≤ ts.length) :
    weightOf (ts.drop n) + n ≤ weightOf ts := by
  induction n generalizing ts with
  | zero => exact Nat.le_refl _
  | succ n ih =>
    cases ts with
    | nil => cases hn
    | cons t ts =>
      have h := ih (Nat.le_of_succ_le_succ hn)
      have ht := t.one_le_weight
      rw [List.drop_succ_cons, weightOf_cons]
      omega

end Token

namespace Cursor

/-- The place behind the last token. -/
def stop (c : Cursor) : Nat := c.place + c.rest.length

theorem weight_eq (c : Cursor) : c.weight = Token.weightOf c.rest := rfl

end Cursor

namespace Reader

open Token (mark weightOf)

variable {α β : Type} {q q' : Prop} {s v n d d' : Nat} {c : Cursor} {x : Reader α} {f : α → Reader β}
  {P : α → Cursor → Prop} {Q : β → Cursor → Prop} {a : α}

/-- What a reader may say of tokens that end at a place: that something is missing at one of them, and
which token is there, or behind the last one, where none is; that its fuel was used up only if it was not
enough. -/
def Excused (q : Prop) (s : Nat) : ParseError → Prop
  | .missing _ p found => p ≤ s ∧ (found = none ↔ p = s)
  | .exhausted => ¬ q
  | .lexical _ | .trailing _ => False

/-- If the fuel is enough, the reader stops at a place among the tokens, or goes on as described. -/
def Halts (q : Prop) (s : Nat) (x : Reader α) (c : Cursor) (P : α → Cursor → Prop) : Prop :=
  match x c with
  | .ok (a, c') => c'.stop = s ∧ P a c'
  | .error e => Excused q s e

/-- What is left weighs less than so much. -/
abbrev Below (v : Nat) : α → Cursor → Prop := fun _ c' => c'.weight < v

/-- With ten pieces of fuel for the weight of its tokens and some more, the reader comes to an end, and
takes part of the weight. -/
def Takes (d n : Nat) (x : Reader α) : Prop :=
  ∀ c : Cursor, Halts (10 * c.weight + d ≤ n) c.stop x c (Below c.weight)

/-- The same of a reader that may leave all tokens. -/
def Leaves (d n : Nat) (x : Reader α) : Prop :=
  ∀ c : Cursor, Halts (10 * c.weight + d ≤ n) c.stop x c (Below (c.weight + 1))

theorem excused_here (hs : c.stop = s) (w : Wanted) : Excused q s (.missing w c.place c.rest.head?) := by
  rw [Cursor.stop] at hs
  refine ⟨by omega, ?_⟩
  cases hr : c.rest with
  | nil =>
    rw [hr] at hs
    simpa using hs
  | cons t ts =>
    rw [hr, List.length_cons] at hs
    simp only [List.head?_cons, reduceCtorEq, false_iff]
    omega

namespace Halts

theorem of_ok {c' : Cursor} (h : x c = .ok (a, c')) (hs : c'.stop = s) (hP : P a c') : Halts q s x c P := by
  rw [Halts, h]
  exact ⟨hs, hP⟩

theorem of_error {e : ParseError} (h : x c = .error e) (he : Excused q s e) : Halts q s x c P := by
  rwa [Halts, h]

theorem mono {Q : α → Cursor → Prop} (h : Halts q' s x c P) (hq : q → q')
    (hP : ∀ a c', P a c' → Q a c') : Halts q s x c Q := by
  unfold Halts at h ⊢
  split at h
  · exact ⟨h.1, hP _ _ h.2⟩
  next e _ =>
    cases e with
    | exhausted => exact fun hq' => h (hq hq')
    | missing => exact h
    | lexical => exact h
    | trailing => exact h

theorem bind (hx : Halts q s x c P) (hf : ∀ a c', c'.stop = s → P a c' → Halts q s (f a) c' Q) :
    Halts q s (x >>= f) c Q := by
  unfold Halts at hx ⊢
  change match (x c >>= fun p => f p.1 p.2) with
    | .ok (a, c') => c'.stop = s ∧ Q a c'
    | .error e => Excused q s e
  split at hx
  next a c' hxc =>
    rw [hxc]
    exact hf a c' hx.1 hx.2
  next e hxc =>
    rw [hxc]
    exact hx

theorem pure (hs : c.stop = s) (h : P a c) : Halts q s (Pure.pure a) c P := ⟨hs, h⟩

theorem give (hs : c.stop = s) (hv : c.weight < v) : Halts q s (Pure.pure a) c (Below v) := pure hs hv

theorem exhausted (h : ¬ q) : Halts q s (exhausted : Reader α) c P := h

theorem fail (hs : c.stop = s) (w : Wanted) : Halts q s (fail w : Reader α) c P :=
  of_error rfl (excused_here hs w)

/-! Looking at the tokens leaves them. -/

theorem peek {f : Option Token → Reader β} (h : Halts q s (f c.rest.head?) c Q) :
    Halts q s (peek? >>= f) c Q := h

theorem rest {f : List Token → Reader β} (h : Halts q s (f c.rest) c Q) : Halts q s (rest >>= f) c Q := h

theorem isAt {m : String} {f : Bool → Reader β} (h : Halts q s (f (c.rest.head? == some (.mark m))) c Q) :
    Halts q s (isAt m >>= f) c Q := h

theorem isAtEnd {f : Bool → Reader β} (h : Halts q s (f c.rest.isEmpty) c Q) :
    Halts q s (isAtEnd >>= f) c Q := h

/-! Taking tokens -/

theorem skip {f : Unit → Reader β} (hs : c.stop = s) (hn : n ≤ c.rest.length)
    (h : ∀ c' : Cursor, c'.stop = s → c'.weight + n ≤ c.weight → Halts q s (f ()) c' Q) :
    Halts q s (skip n >>= f) c Q := by
  refine h (c.skip n) ?_ (Token.weightOf_drop_add_le hn)
  simp only [Cursor.stop, Cursor.skip, List.length_drop] at hs ⊢
  omega

theorem skip_one {f : Unit → Reader β} (hs : c.stop = s) (hne : c.rest ≠ [])
    (h : ∀ c' : Cursor, c'.stop = s → c'.weight < c.weight → Halts q s (f ()) c' Q) :
    Halts q s (Reader.skip 1 >>= f) c Q :=
  skip hs (List.length_pos_iff.mpr hne) fun c' hs' hw => h c' hs' (by omega)

/-- The cursor behind the first token. -/
theorem behind {place : Nat} {t : Token} {ts : List Token} (hs : Cursor.stop ⟨place, t :: ts⟩ = s) :
    Cursor.stop ⟨place + 1, ts⟩ = s ∧ Cursor.weight ⟨place + 1, ts⟩ < Cursor.weight ⟨place, t :: ts⟩ := by
  have ht := t.one_le_weight
  simp only [Cursor.stop, Cursor.weight_eq, List.length_cons, Token.weightOf_cons] at hs ⊢
  omega

theorem takes {t : Token} {f : Bool → Reader β} (hs : c.stop = s)
    (hyes : ∀ c' : Cursor, c'.stop = s → c'.weight < c.weight → Halts q s (f true) c' Q)
    (hno : Halts q s (f false) c Q) : Halts q s (takes t >>= f) c Q := by
  have htakes : Halts q s (Reader.takes t) c fun b c' =>
      b = true ∧ c'.weight < c.weight ∨ b = false ∧ c' = c := by
    obtain ⟨place, rest⟩ := c
    cases rest with
    | nil => exact of_ok rfl hs (.inr ⟨rfl, rfl⟩)
    | cons u rest =>
      by_cases hu : u = t
      · exact of_ok (if_pos hu) (behind hs).1 (.inl ⟨rfl, (behind hs).2⟩)
      · exact of_ok (if_neg hu) hs (.inr ⟨rfl, rfl⟩)
  refine htakes.bind ?_
  rintro b c' hs' (⟨rfl, hw⟩ | ⟨rfl, rfl⟩)
  · exact hyes c' hs' hw
  · exact hno

/-- One way if the token is there, another one if it is not. -/
theorem takes_ite {t : Token} {y n : Reader β} (hs : c.stop = s)
    (hyes : ∀ c' : Cursor, c'.stop = s → c'.weight < c.weight → Halts q s y c' Q)
    (hno : Halts q s n c Q) : Halts q s (Reader.takes t >>= fun b => if b = true then y else n) c Q :=
  takes hs hyes hno

theorem expect {m : String} {f : Unit → Reader β} (hs : c.stop = s)
    (h : ∀ c' : Cursor, c'.stop = s → c'.weight < c.weight → Halts q s (f ()) c' Q) :
    Halts q s (expect m >>= f) c Q := by
  have hexpect : Halts q s (Reader.expect m) c (Below c.weight) :=
    takes hs (fun c' hs' hw => pure hs' hw) (fail hs _)
  exact hexpect.bind fun _ => h

theorem identifier {f : String → Reader β} (hs : c.stop = s)
    (h : ∀ name (c' : Cursor), c'.stop = s → c'.weight < c.weight → Halts q s (f name) c' Q) :
    Halts q s (identifier >>= f) c Q := by
  have hname : Halts q s Reader.identifier c (Below c.weight) := by
    obtain ⟨place, rest⟩ := c
    have hmissing := excused_here (q := q) hs .identifier
    cases rest with
    | nil => exact of_error rfl hmissing
    | cons t ts =>
      cases t with
      | word w =>
        by_cases hk : isKeyword w = true
        · exact of_error (if_pos hk) hmissing
        · exact of_ok (if_neg hk) (behind hs).1 (behind hs).2
      | _ => exact of_error rfl hmissing
  exact hname.bind h

theorem qualifiedName {f : String → Reader β} (hs : c.stop = s)
    (h : ∀ name (c' : Cursor), c'.stop = s → c'.weight < c.weight → Halts q s (f name) c' Q) :
    Halts q s (qualifiedName >>= f) c Q := by
  have hname : Halts q s Reader.qualifiedName c (Below c.weight) := by
    refine identifier hs fun first c' hs' hw => ?_
    obtain ⟨parts, ts, hts⟩ : ∃ parts ts, nameTail c'.rest = (parts, ts) := ⟨_, _, rfl⟩
    have hsplit := (nameTail_eq hts).1
    have hlen := congrArg List.length hsplit
    have hweight := congrArg weightOf hsplit
    rw [List.length_append] at hlen
    rw [Token.weightOf_append] at hweight
    have hstop : (c'.before ts).stop = s := by
      simp only [Cursor.stop, Cursor.before] at hs' ⊢
      omega
    have hless : (c'.before ts).weight < c.weight := by
      simp only [Cursor.weight_eq, Cursor.before] at hw ⊢
      omega
    exact of_ok (by rw [hts]) hstop hless
  exact hname.bind h

theorem closeAngle {f : Unit → Reader β} (hs : c.stop = s)
    (h : ∀ c' : Cursor, c'.stop = s → c'.weight < c.weight → Halts q s (f ()) c' Q) :
    Halts q s (closeAngle >>= f) c Q := by
  have hclose : Halts q s Reader.closeAngle c (Below c.weight) := by
    obtain ⟨place, rest⟩ := c
    have hmissing := excused_here (q := q) hs (.mark ">")
    -- a longer mark loses its first part and stays
    have hpart : ∀ {m m' ts}, Token.weight (mark m) = Token.weight (mark m') + 1 →
        Cursor.weight ⟨place, mark m' :: ts⟩ < Cursor.weight ⟨place, mark m :: ts⟩ := by
      intro m m' ts hw
      simp only [Cursor.weight_eq, Token.weightOf_cons, hw]
      omega
    unfold Halts Reader.closeAngle
    dsimp only
    split
    case h_1 x a c' hx =>
      split at hx <;> cases hx
      · exact behind hs
      · exact ⟨hs, hpart rfl⟩
      · exact ⟨hs, hpart rfl⟩
    case h_2 x e hx =>
      split at hx <;> cases hx
      exact hmissing
  exact hclose.bind fun _ => h

theorem two_mul_bracketPairs_le (ts : List Token) : 2 * bracketPairs ts ≤ ts.length := by
  have hsplit : ts = Token.pairs (bracketPairs ts) ++ _ := bracketPairs_eq
  have h := congrArg List.length hsplit
  have hpairs : ∀ n, (Token.pairs n).length = 2 * n := by
    intro n
    induction n with
    | zero => rfl
    | succ n ih => rw [Token.pairs, List.length_cons, List.length_cons, ih]; omega
  rw [List.length_append, hpairs] at h
  omega

/-- Brackets after a type are taken as far as they go. -/
theorem brackets {e : Doc} (hs : c.stop = s) (hv : c.weight < v) : Halts q s (brackets e) c (Below v) :=
  rest <| skip hs (two_mul_bracketPairs_le _) fun _ hs' hw => give hs' (by omega)

end Halts

/-! Calls of readers with fuel -/

namespace Takes

theorem mono (h : Takes d n x) (hd : d ≤ d') : Takes d' n x := fun c => (h c).mono (by omega) fun _ _ => id

theorem zero (hd : 0 < d) : Takes d 0 (exhausted : Reader α) := fun _ => Halts.exhausted (by omega)

/-- A call whose fuel is enough, and what is done with its result. -/
theorem bind (hx : Takes d n x) (hs : c.stop = s) (hq : q → 10 * c.weight + d ≤ n)
    (hf : ∀ a (c' : Cursor), c'.stop = s → c'.weight < c.weight → Halts q s (f a) c' Q) :
    Halts q s (x >>= f) c Q := by
  subst hs
  exact ((hx c).mono hq fun _ _ => id).bind hf

/-- A call that ends a reader. -/
theorem last (hx : Takes d n x) (hs : c.stop = s) (hq : q → 10 * c.weight + d ≤ n) (hv : c.weight ≤ v) :
    Halts q s x c (Below v) := by
  subst hs
  exact (hx c).mono hq fun _ _ hw => Nat.lt_of_lt_of_le hw hv

end Takes

namespace Leaves

theorem zero (hd : 0 < d) : Leaves d 0 (exhausted : Reader α) := fun _ => Halts.exhausted (by omega)

theorem bind (hx : Leaves d n x) (hs : c.stop = s) (hq : q → 10 * c.weight + d ≤ n)
    (hf : ∀ a (c' : Cursor), c'.stop = s → c'.weight ≤ c.weight → Halts q s (f a) c' Q) :
    Halts q s (x >>= f) c Q := by
  subst hs
  exact ((hx c).mono hq fun _ _ => id).bind fun a c' hs' hw => hf a c' hs' (Nat.le_of_lt_succ hw)

theorem last (hx : Leaves d n x) (hs : c.stop = s) (hq : q → 10 * c.weight + d ≤ n) (hv : c.weight < v) :
    Halts q s x c (Below v) := by
  subst hs
  exact (hx c).mono hq fun _ _ hw => Nat.lt_of_lt_of_le hw hv

end Leaves

theorem ne_nil_of_head? {t : Token} {ts : List Token} (h : ts.head? = some t) : ts ≠ [] := by
  rintro rfl
  cases h

/-! Types and parameters -/

/-- With so much fuel the readers of types come to an end. -/
structure TypesHalt (n : Nat) : Prop where
  type : Takes 2 n (type n)
  namedType : Takes 1 n (namedType n)
  typeList : Takes 3 n (typeList n)

theorem TypesHalt.type_succ (h : TypesHalt n) : Takes 2 (n + 1) (Reader.type (n + 1)) := by
  intro c
  rw [Reader.type]
  refine .peek ?_
  have hnamed : Halts (10 * c.weight + 2 ≤ n + 1) c.stop (Reader.namedType n) c (Below c.weight) :=
    h.namedType.last rfl (by omega) le_rfl
  have hword : ∀ {t} {e : Doc}, c.rest.head? = some t →
      Halts (10 * c.weight + 2 ≤ n + 1) c.stop (do skip 1; brackets e) c (Below c.weight) :=
    fun ht => .skip_one rfl (ne_nil_of_head? ht) fun _ hs hw => .brackets hs hw
  split
  case h_1 w hw =>
    split
    · exact hword hw
    · split
      · exact hword hw
      · exact hnamed
  · exact hnamed

theorem TypesHalt.namedType_succ (h : TypesHalt n) : Takes 1 (n + 1) (Reader.namedType (n + 1)) := by
  intro c
  rw [Reader.namedType]
  refine .qualifiedName rfl fun name c₁ hs₁ hw₁ => .takes_ite hs₁ (fun c₂ hs₂ hw₂ => .rest ?_) ?_
  · split
    · exact .closeAngle hs₂ fun c₃ hs₃ hw₃ => .brackets hs₃ (by omega)
    · refine h.typeList.bind hs₂ (by omega) fun args c₃ hs₃ hw₃ => ?_
      exact .closeAngle hs₃ fun c₄ hs₄ hw₄ => .brackets hs₄ (by omega)
  · exact .brackets hs₁ hw₁

theorem TypesHalt.typeList_succ (h : TypesHalt n) : Takes 3 (n + 1) (Reader.typeList (n + 1)) := by
  intro c
  rw [Reader.typeList]
  refine h.type.bind rfl (by omega) fun first c₁ hs₁ hw₁ => .takes_ite hs₁ (fun c₂ hs₂ hw₂ => ?_) ?_
  · exact h.typeList.bind hs₂ (by omega) fun more c₃ hs₃ hw₃ => .give hs₃ (by omega)
  · exact .pure hs₁ hw₁

theorem typesHalt (n : Nat) : TypesHalt n := by
  induction n with
  | zero =>
    constructor
    · rw [Reader.type]; exact .zero (by decide)
    · rw [Reader.namedType]; exact .zero (by decide)
    · rw [Reader.typeList]; exact .zero (by decide)
  | succ n ih => exact ⟨ih.type_succ, ih.namedType_succ, ih.typeList_succ⟩

theorem takes_type (n : Nat) : Takes 2 n (type n) := (typesHalt n).type

theorem takes_paramsFrom (n : Nat) : Takes 3 n (paramsFrom n) := by
  induction n with
  | zero =>
    rw [paramsFrom]
    exact .zero (by decide)
  | succ n ih =>
    intro c
    rw [paramsFrom]
    refine (takes_type n).bind rfl (by omega) fun ty c₁ hs₁ hw₁ => .identifier hs₁ fun name c₂ hs₂ hw₂ => ?_
    refine .takes_ite hs₂ (fun c₃ hs₃ hw₃ => .give hs₃ (by omega)) ?_
    refine .expect hs₂ fun c₃ hs₃ hw₃ => ih.bind hs₃ (by omega) fun more c₄ hs₄ hw₄ => ?_
    exact .give hs₄ (by omega)

theorem takes_params (n : Nat) : Takes 0 n (params n) := by
  intro c
  refine .expect rfl fun c₁ hs₁ hw₁ => ?_
  refine .takes_ite hs₁ (fun c₂ hs₂ hw₂ => .give hs₂ (by omega)) ?_
  exact (takes_paramsFrom n).last hs₁ (by omega) hw₁.le

theorem takes_lambdaParams (n : Nat) : Takes 3 n (lambdaParams n) := by
  induction n with
  | zero =>
    rw [lambdaParams]
    exact .zero (by decide)
  | succ n ih =>
    intro c
    rw [lambdaParams]
    have hmore : ∀ p {c₂ : Cursor}, c₂.stop = c.stop → c₂.weight < c.weight →
        Halts (10 * c.weight + 3 ≤ n + 1) c.stop (do let more ← lambdaParams n; Pure.pure (p :: more)) c₂
          (Below c.weight) := by
      intro p c₂ hs₂ hw₂
      refine ih.bind hs₂ (by omega) fun more c₃ hs₃ hw₃ => ?_
      exact .give hs₃ (by omega)
    -- the name, and what follows it, with a type or without one
    have hname : ∀ ty {c₁ : Cursor}, c₁.stop = c.stop → c₁.weight ≤ c.weight →
        Halts (10 * c.weight + 3 ≤ n + 1) c.stop (do
          let name ← identifier
          let _ ← takesMark ","
          let more ← lambdaParams n
          Pure.pure (param name ty :: more)) c₁ (Below c.weight) := by
      intro ty c₁ hs₁ hw₁
      refine .identifier hs₁ fun name c₂ hs₂ hw₂ => .takes hs₂ (fun c₃ hs₃ hw₃ => ?_) ?_
      · exact hmore _ hs₃ (by omega)
      · exact hmore _ hs₂ (by omega)
    refine .takes_ite rfl (fun c₁ hs₁ hw₁ => .pure hs₁ hw₁) (.rest ?_)
    split
    · exact (takes_type n).bind rfl (by omega) fun ty c₁ hs₁ hw₁ => hname (some ty) hs₁ hw₁.le
    · exact hname none rfl le_rfl

end Reader

end TreeTidy
