import TreeTidy.Proofs.Source.Scanning
/-!
Looking ahead at the same expression twice: at the tokens that it was read from, and at those that it is
printed as. Beside the brackets of types nothing differs that looking ahead can see, so whatever is found
in the print was found the first time.

Tokens are compared behind an expression and in front of one. What is compared in front of an expression
follows from what is compared behind it, so both are told for tokens up to the end of the text.
-/
namespace TreeTidy.Lookahead

variable {q : Prop} {ss ps : List Token} {m : String}

/-- Tokens that look the same: the first one, the one after it if that is a word, and the one after a
closing parenthesis if it matters. -/
structure Glimpse (q : Prop) (ss ps : List Token) : Prop where
  head : ss.head? = ps.head?
  word : ∀ w, ps.head? = some (.word w) → ss.tail.head? = ps.tail.head?
  close : q → ps.head? = some (.mark ")") → ss.tail.head? = ps.tail.head?

/-- What is found second was found first, as far as it is looked at. -/
def Shows (q : Prop) (o o' : Option (List Token)) : Prop :=
  ∀ ps, o' = some ps → ∃ ss, o = some ss ∧ Glimpse q ss ps

/-- As before, and what is found goes on with no pair of brackets. -/
def ShowsApart (q : Prop) (o o' : Option (List Token)) : Prop :=
  ∀ ps, o' = some ps → ps.head? ≠ some (.mark "[") ∧ ∃ ss, o = some ss ∧ Glimpse q ss ps

/-- Inside angle brackets the tokens look the same. -/
def Within (q : Prop) (ss ps : List Token) : Prop :=
  ∀ k ≥ 1, ShowsApart q (afterAngles k ss) (afterAngles k ps)

/-- Behind an operand the tokens look the same. -/
structure After (q : Prop) (ss ps : List Token) : Prop where
  head : ss.head? = ps.head?
  tail : Shows q (typeTail ss) (typeTail ps)
  within : Within q ss ps

/-- In front of an operand the tokens look the same. -/
structure Before (q : Prop) (ss ps : List Token) : Prop where
  glimpse : Glimpse q ss ps
  opens : ∃ t, ps.head? = some t ∧ t.opensOperand = true
  type : Shows q (afterType? ss) (afterType? ps)
  within : Within q ss ps

theorem Shows.none {o : Option (List Token)} : Shows q o none := nofun

theorem ShowsApart.none {o : Option (List Token)} : ShowsApart q o none := nofun

theorem Within.none {t : Token} (h : angleDepth t = none) (ss ps : List Token) :
    Within q ss (t :: ps) := fun _ _ => by
  rw [afterAngles_none h]
  exact .none

theorem Within.pass {t : Token} (h : angleDepth t = some 0) (hw : Within q ss ps) :
    Within q (t :: ss) (t :: ps) := fun k hk => by
  rw [afterAngles_pass h hk, afterAngles_pass h hk]
  exact hw k hk

theorem Glimpse.mark (hc : m = ")" → q → ss.head? = ps.head?) :
    Glimpse q (.mark m :: ss) (.mark m :: ps) :=
  ⟨rfl, nofun, fun hq h => hc (by simpa using h) hq⟩

/-- Nothing of a type is left before a mark that does not go on with one. -/
theorem Shows.mark (hm : m ∉ [".", "<", "["]) (hc : m = ")" → q → ss.head? = ps.head?) :
    Shows q (typeTail (.mark m :: ss)) (typeTail (.mark m :: ps)) := by
  have here : ∀ ts, typeTail (.mark m :: ts) = some (.mark m :: ts) := by
    intro ts
    rw [typeTail_other, afterBrackets_other] <;>
      · intro h
        cases h
        exact hm (by decide)
  rw [here, here]
  rintro _ ⟨⟩
  exact ⟨_, rfl, .mark hc⟩

theorem Before.head_ne (h : Before q ss ps) : ps.head? ≠ some (.mark "[") := by
  obtain ⟨t, ht, ho⟩ := h.opens
  rw [ht]
  rintro ⟨⟩
  cases ho

namespace After

theorem stop (hd : angleDepth (.mark m) = none) (hm : m ∉ [".", "<", "[", ")"]) :
    After q (.mark m :: ss) (.mark m :: ps) :=
  ⟨rfl, .mark (fun h => hm (by simp_all)) fun h => absurd h (by rintro rfl; exact hm (by decide)),
    .none hd _ _⟩

theorem close (h : q → ss.head? = ps.head?) : After q (.mark ")" :: ss) (.mark ")" :: ps) :=
  ⟨rfl, .mark (by decide) fun _ => h, .none rfl _ _⟩

theorem pass (hd : angleDepth (.mark m) = some 0) (hm : m ∉ [".", "<", "[", ")"])
    (h : Within q ss ps) : After q (.mark m :: ss) (.mark m :: ps) :=
  ⟨rfl, .mark (fun h => hm (by simp_all)) fun h => absurd h (by rintro rfl; exact hm (by decide)),
    .pass hd h⟩

theorem point {n : String} (hn : Reader.isKeyword n = false) (h : After q ss ps) :
    After q (.mark "." :: .word n :: ss) (.mark "." :: .word n :: ps) := by
  refine ⟨rfl, ?_, .pass rfl (.pass rfl h.within)⟩
  rw [typeTail_point hn, typeTail_point hn]
  exact h.tail

theorem bracket (h : Before q ss ps) : After q (.mark "[" :: ss) (.mark "[" :: ps) := by
  obtain ⟨t, ht, ho⟩ := h.opens
  have here : ∀ ts : List Token, ts.head? = some t →
      typeTail (.mark "[" :: ts) = some (.mark "[" :: ts) := by
    intro ts hts
    rw [typeTail_other (by simp) (by simp), afterBrackets]
    rintro rest ⟨⟩
    cases hts
    cases ho
  refine ⟨rfl, ?_, .pass rfl h.within⟩
  rw [here ss (h.glimpse.head.trans ht), here ps ht]
  rintro _ ⟨⟩
  exact ⟨_, rfl, .mark fun h => absurd h (by decide)⟩

/-- Behind an angle bracket that closes may come the end of the outermost ones. -/
theorem closing {d : Int} (hd : angleDepth (.mark m) = some d) (hm : m ∉ [".", "<", "[", ")"])
    (h : Before q ss ps) : After q (.mark m :: ss) (.mark m :: ps) := by
  refine ⟨rfl, .mark (fun h => hm (by simp_all)) fun h => absurd h (by rintro rfl; exact hm (by decide)),
    fun k hk => ?_⟩
  rw [afterAngles_cons hd, afterAngles_cons hd]
  by_cases hle : k + d ≤ 0
  · rw [if_pos hle, if_pos hle]
    rintro _ ⟨⟩
    exact ⟨h.head_ne, ss, rfl, h.glimpse⟩
  · rw [if_neg hle, if_neg hle]
    exact h.within _ (by omega)

theorem angle (h : Before q ss ps) : After q (.mark "<" :: ss) (.mark "<" :: ps) := by
  refine ⟨rfl, ?_, fun k hk => ?_⟩
  · rw [typeTail_angle, typeTail_angle]
    intro us hus
    obtain ⟨ps₁, hps, rfl⟩ := Option.map_eq_some_iff.mp hus
    obtain ⟨hne, ss₁, hss, hg⟩ := h.within 1 (by decide) ps₁ hps
    refine ⟨ss₁, ?_, by rwa [afterBrackets_other hne]⟩
    rw [hss, Option.map_some, afterBrackets_other (hg.head ▸ hne)]
  · rw [afterAngles_open (by omega), afterAngles_open (by omega)]
    exact h.within _ (by omega)

theorem operator {op : BinaryOp} (h : Before q ss ps) :
    After q (.mark op.token :: ss) (.mark op.token :: ps) := by
  cases op with
  | lt => exact .angle h
  | gt | shr | ushr => exact .closing rfl (by decide) h
  | _ => exact .stop rfl (by decide)

theorem instanceOf (hh : ss.head? = ps.head?) (hw : Within q ss ps) :
    After q (.word "instanceof" :: ss) (.word "instanceof" :: ps) := by
  refine ⟨rfl, ?_, .pass rfl hw⟩
  have here : ∀ ts, typeTail (.word "instanceof" :: ts) = some (.word "instanceof" :: ts) := fun ts => by
    rw [typeTail_other (by simp) (by simp), afterBrackets_other (by simp)]
  rw [here, here]
  rintro _ ⟨⟩
  exact ⟨_, rfl, rfl, fun _ _ => hh, nofun⟩

end After

namespace Before

theorem mark (ho : (Token.mark m).opensOperand = true) :
    Before q (.mark m :: ss) (.mark m :: ps) := by
  have hm : m ∈ ["(", "!", "~", "-", "+", "++", "--"] := List.contains_iff_mem.mp ho
  have hd : ∀ m ∈ ["(", "!", "~", "-", "+", "++", "--"], angleDepth (.mark m) = none ∧ m ≠ ")" := by
    decide
  exact ⟨.mark fun h => absurd h (hd m hm).2, ⟨_, rfl, ho⟩, .none, .none (hd m hm).1 _ _⟩

theorem word {w : String} (h : After q ss ps) : Before q (.word w :: ss) (.word w :: ps) := by
  refine ⟨⟨rfl, fun _ _ => h.head, nofun⟩, ⟨_, rfl, rfl⟩, ?_, .pass rfl h.within⟩
  rw [afterType_word, afterType_word]
  split
  · exact .none
  · exact h.tail

theorem keyword {w : String} (hk : Reader.isKeyword w = true) (hv : w ≠ "var")
    (hh : ss.head? = ps.head?) (hw : Within q ss ps) : Before q (.word w :: ss) (.word w :: ps) := by
  refine ⟨⟨rfl, fun _ _ => hh, nofun⟩, ⟨_, rfl, rfl⟩, ?_, .pass rfl hw⟩
  rw [afterType_word, afterType_word, hk, if_pos (by simpa using hv), if_pos (by simpa using hv)]
  exact .none

/-- A literal that is no word. -/
theorem literal {t : Token} (ho : t.opensOperand = true) (hm : ∀ m, t ≠ .mark m)
    (hw : ∀ w, t ≠ .word w) : Before q (t :: ss) (t :: ps) := by
  have hd : angleDepth t = none ∧ ∀ ts, afterType? (t :: ts) = none := by
    cases t with
    | word w => exact absurd rfl (hw w)
    | mark m => exact absurd rfl (hm m)
    | _ => exact ⟨rfl, fun _ => rfl⟩
  refine ⟨⟨rfl, fun w h => absurd (by simpa using h) (hw w), fun _ h => absurd (by simpa using h) (hm _)⟩,
    ⟨t, rfl, ho⟩, ?_, .none hd.1 _ _⟩
  rw [hd.2 ps]
  exact .none

/-- No declaration starts in the second tokens if none starts in the first. -/
theorem startsDeclaration (h : Before q ss ps) (hs : startsDeclaration ss = false) :
    startsDeclaration ps = false := by
  rw [Bool.eq_false_iff] at hs ⊢
  refine fun hp => hs ?_
  unfold Lookahead.startsDeclaration at hp ⊢
  split at hp
  case h_2 => cases hp
  case h_1 w m after hty =>
    obtain ⟨ss₁, hss, hg⟩ := h.type _ hty
    obtain ⟨us, rfl⟩ := List.head?_eq_some_iff.mp (hg.head.trans rfl)
    obtain ⟨vs, rfl⟩ := List.head?_eq_some_iff.mp (hg.word w rfl)
    rw [hss]
    exact hp

end Before

/-- Whether a cast starts depends on the token in front and on the one after the parentheses. -/
theorem startsCast_congr {us vs : List Token} (hs : afterType? ss = some (.mark ")" :: us))
    (hp : afterType? ps = some (.mark ")" :: vs)) (hh : ss.head? = ps.head?)
    (ht : us.head? = vs.head?) : startsCast (.mark "(" :: ss) = startsCast (.mark "(" :: ps) := by
  have hprim : startsPrimitive ss = startsPrimitive ps := by
    unfold startsPrimitive
    rcases ss with - | ⟨s, ss⟩ <;> rcases ps with - | ⟨p, ps⟩ <;> cases hh
    · rfl
    · cases s <;> rfl
  rw [startsCast, startsCast, hs, hp, hprim]
  rcases us with - | ⟨u, us⟩ <;> rcases vs with - | ⟨v, vs⟩ <;> cases ht
  · rfl
  · cases u <;> rfl

/-- No cast starts in the second tokens if none starts in the first. -/
theorem Before.startsCast (h : Before True ss ps) (hs : startsCast (.mark "(" :: ss) = false) :
    startsCast (.mark "(" :: ps) = false := by
  rw [Bool.eq_false_iff] at hs ⊢
  intro hp
  obtain ⟨us, hty⟩ : ∃ us, afterType? ps = some (.mark ")" :: us) := by
    rw [Lookahead.startsCast] at hp
    split at hp
    case h_1 us hty => exact ⟨us, hty⟩
    case h_2 => cases hp
  obtain ⟨ss₁, hss, hg⟩ := h.type _ hty
  obtain ⟨vs, rfl⟩ := List.head?_eq_some_iff.mp (hg.head.trans rfl)
  exact hs ((startsCast_congr hss hty h.glimpse.head (hg.close trivial rfl)).trans hp)

end TreeTidy.Lookahead
