import Mathlib.Data.List.Find
import Mathlib.Data.List.Infix
import TreeTidy.Print.Quoted
import TreeTidy.Source.Lexeme
/-!
How tokens are written so that they are read again. The tokens of a text are all `Lexed`; a lexed token
is the next token of its spelling, if what follows stands apart from it.
-/
namespace TreeTidy

namespace CharClass

variable {P : Char → Prop} [DecidablePred P]

/-- What is said of some characters is decided by going through them, not through all that there are. -/
instance decidableForallMem (cs : List Char) : Decidable (∀ c ∈ cs, P c) := List.decidableBAll P cs

instance decidableForallOption (o : Option Char) : Decidable (∀ c ∈ o, P c) := Option.decidableForallMem o

instance decidableExistsOption (o : Option Char) : Decidable (∃ c ∈ o, P c) := Option.decidableExistsMem o

end CharClass

namespace Lexeme

/-- Whether characters are one word. -/
def isWord : List Char → Bool
  | [] => false
  | c :: cs => !CharClass.isBlank c && !c.isDigit && CharClass.startsWord c
      && cs.all CharClass.continuesWord

/-- Whether characters are one number. -/
def isNumber : List Char → Bool
  | [] => false
  | c :: cs => !CharClass.isBlank c && c.isDigit && (number cs == (cs, []))

theorem number_append {cs more : List Char} (h : number cs = (cs, []))
    (hm : number more = ([], more)) : number (cs ++ more) = (cs, more) := by
  induction cs with
  | nil => exact hm
  | cons c cs ih =>
    rw [number] at h
    split at h
    case isFalse => cases h
    case isTrue hc =>
      have hcs : number cs = (cs, []) := by
        have h₁ := congrArg (List.tail ∘ Prod.fst) h
        have h₂ := congrArg Prod.snd h
        exact Prod.ext h₁ h₂
      -- the digit after a point is part of the number too
      have hc' : (CharClass.continuesNumber c
          || (c == '.' && (cs ++ more).head?.any Char.isDigit)) = true := by
        cases cs with
        | nil => simp_all
        | cons d cs => exact hc
      rw [List.cons_append, number, if_pos hc', ih hcs]

theorem number_fst (cs : List Char) : number (number cs).1 = ((number cs).1, []) := by
  induction cs with
  | nil => rfl
  | cons c cs ih =>
    rw [number]
    split
    case isFalse => rfl
    case isTrue hc =>
      have hc' : (CharClass.continuesNumber c
          || (c == '.' && (number cs).1.head?.any Char.isDigit)) = true := by
        refine (Bool.or_eq_true_iff.mp hc).elim (fun h => by rw [h, Bool.true_or]) fun h => ?_
        obtain ⟨hp, hd⟩ := Bool.and_eq_true_iff.mp h
        cases cs with
        | nil => cases hd
        | cons d cs =>
          have hd' : CharClass.continuesNumber d = true := by
            have : d.isDigit = true := hd
            simp [CharClass.continuesNumber, Char.isAlphanum, this]
          rw [number, hd', Bool.true_or, if_pos rfl]
          simpa [hp] using .inr hd
      change number (c :: (number cs).1) = (c :: (number cs).1, [])
      rw [number, if_pos hc', ih]

/-- What is read of a literal is what was written. -/
theorem content_encode {quote : Char} (hq : quote = '"' ∨ quote = '\'') (cs rest : List Char) :
    content quote (Quoted.encode quote cs ++ quote :: rest) = .ok (cs, rest) := by
  induction cs with
  | nil => exact (content.eq_def ..).trans (if_pos rfl)
  | cons c cs ih =>
    have hn : 'n' ≠ quote ∧ 't' ≠ quote ∧ 'r' ≠ quote ∧ '\\' ≠ quote := by
      rcases hq with rfl | rfl <;> decide
    have hcons : Quoted.encode quote (c :: cs)
        = Quoted.encodeChar quote c ++ Quoted.encode quote cs := rfl
    have step : ∀ e, unescape e = c →
        content quote ('\\' :: e :: (Quoted.encode quote cs ++ quote :: rest)) = .ok (c :: cs, rest) := by
      intro e he
      rw [content.eq_def]
      simp only [if_neg hn.2.2.2, if_pos, ih, ← he]
      rfl
    rw [hcons, List.append_assoc]
    unfold Quoted.encodeChar
    split
    case isTrue h => exact step '\\' (by rw [h]; rfl)
    split
    case isTrue h => exact step 'n' (by rw [h]; rfl)
    split
    case isTrue h => exact step 't' (by rw [h]; rfl)
    split
    case isTrue h => exact step 'r' (by rw [h]; rfl)
    split
    case isTrue h =>
      refine step c ?_
      rcases hq with hq | hq <;> rw [h, hq] <;> rfl
    case isFalse hb _ _ _ hne =>
      rw [List.singleton_append, content.eq_def]
      simp only [if_neg hne, if_neg hb, ih]
      rfl

end Lexeme

namespace Token

/-- What the tokens of texts are like. -/
def Lexed : Token → Prop
  | word text => Lexeme.isWord text.toList = true
  | int text => Lexeme.isNumber text.toList = true ∧ Lexeme.numberToken text.toList = int text
  | long text => Lexeme.isNumber text.toList = true ∧ Lexeme.numberToken text.toList = long text
  | double text => Lexeme.isNumber text.toList = true ∧ Lexeme.numberToken text.toList = double text
  | string _ | char _ => True
  | mark text => text ∈ marks

instance : DecidablePred Lexed := fun t => by cases t <;> unfold Lexed <;> infer_instance

/-- The characters that a token is written with. -/
def spelling : Token → List Char
  | word text | int text | long text | double text | mark text => text.toList
  | string text => (Quoted.literal '"' text).toList
  | char text => (Quoted.literal '\'' text).toList

/-- The characters that make a mark the beginning of a longer one. -/
def longer (m : String) : List Char :=
  marks.filterMap fun m' =>
    if m.toList.isPrefixOf m'.toList then m'.toList[m.toList.length]? else none

/-- Characters that do not make a token longer when they follow it. -/
def Apart (t : Token) (cs : List Char) : Prop :=
  match t with
  | word _ => ∀ c ∈ cs.head?, CharClass.continuesWord c = false
  | int _ | long _ | double _ => Lexeme.number cs = ([], cs)
  | string _ | char _ => True
  | mark m => (∀ c ∈ cs.head?, c ∉ longer m) ∧ ¬ (m = "/" ∧ cs.head? = some '/')

/-- The characters of the marks. -/
def markLetters : List (List Char) :=
  [['>', '>', '>', '='], ['<', '<', '='], ['>', '>', '='], ['>', '>', '>'], ['-', '>'], [':', ':'],
    ['+', '+'], ['-', '-'], ['&', '&'], ['|', '|'], ['=', '='], ['!', '='], ['<', '='], ['>', '='],
    ['+', '='], ['-', '='], ['*', '='], ['/', '='], ['%', '='], ['&', '='], ['|', '='], ['^', '='],
    ['<', '<'], ['>', '>'], ['('], [')'], ['\x7b'], ['\x7d'], ['['], [']'], [';'], [','], ['.'], ['?'],
    [':'], ['='], ['<'], ['>'], ['!'], ['~'], ['+'], ['-'], ['*'], ['/'], ['%'], ['&'], ['|'], ['^']]

theorem map_toList_marks : marks.map String.toList = markLetters := by decide

/-- What is said of the marks is decided by going through their characters. -/
theorem forall_marks {P : List Char → Prop} (h : ∀ cs ∈ markLetters, P cs) (m : String) (hm : m ∈ marks) :
    P m.toList :=
  h _ (map_toList_marks ▸ List.mem_map_of_mem hm)

/-- The characters that make a longer mark of some. -/
def lengthens (cs : List Char) : List Char :=
  markLetters.filterMap fun ds => if cs.isPrefixOf ds then ds[cs.length]? else none

theorem longer_eq (m : String) : longer m = lengthens m.toList := by
  rw [lengthens, ← map_toList_marks, List.filterMap_map]
  rfl

theorem mem_longer {m m' : String} {c : Char} (hm : m' ∈ marks) (h : m.toList ++ [c] <+: m'.toList) :
    c ∈ longer m := by
  refine List.mem_filterMap.mpr ⟨m', hm, ?_⟩
  obtain ⟨rest, hr⟩ := h
  rw [if_pos (List.isPrefixOf_iff_prefix.mpr ⟨c :: rest, by simp [← hr]⟩), ← hr]
  simp

theorem lexed_numberToken {cs : List Char} (h : Lexeme.isNumber cs = true) :
    (Lexeme.numberToken cs).Lexed := by
  have hcs : cs = (String.ofList cs).toList := String.toList_ofList.symm
  unfold Lexeme.numberToken
  dsimp only
  split
  case isTrue hl =>
    refine ⟨hcs ▸ h, ?_⟩
    rw [← hcs, Lexeme.numberToken]
    exact if_pos hl
  split
  case isTrue hl hd =>
    refine ⟨hcs ▸ h, ?_⟩
    rw [← hcs, Lexeme.numberToken]
    exact (if_neg hl).trans (if_pos hd)
  case isFalse hl hd =>
    refine ⟨hcs ▸ h, ?_⟩
    rw [← hcs, Lexeme.numberToken]
    exact (if_neg hl).trans (if_neg hd)

/-- How a mark starts tells it from everything else. -/
theorem head_mark : ∀ m ∈ marks, ∃ c cs, m.toList = c :: cs ∧ CharClass.isBlank c = false
    ∧ c.isDigit = false ∧ CharClass.startsWord c = false ∧ c ≠ '"' ∧ c ≠ '\'' := by
  have h : ∀ cs ∈ markLetters, ∃ c ∈ cs.head?, CharClass.isBlank c = false ∧ c.isDigit = false
      ∧ CharClass.startsWord c = false ∧ c ≠ '"' ∧ c ≠ '\'' := by decide
  intro m hm
  obtain ⟨c, hc, hm⟩ := forall_marks h m hm
  obtain ⟨cs, hcs⟩ := List.head?_eq_some_iff.mp hc
  exact ⟨c, cs, hcs, hm⟩

theorem spelling_ne_nil {t : Token} (ht : t.Lexed) : t.spelling ≠ [] := by
  cases t with
  | word text =>
    intro h
    rw [spelling] at h
    rw [Lexed, h] at ht
    cases ht
  | int text | long text | double text =>
    intro h
    rw [spelling] at h
    have := ht.1
    rw [h] at this
    cases this
  | string | char => rw [spelling, Quoted.literal, String.toList_ofList]; exact List.cons_ne_nil _ _
  | mark m =>
    obtain ⟨c, cs, hm, _⟩ := head_mark m ht
    rw [spelling, hm]
    exact List.cons_ne_nil _ _

/-- The first mark that fits is the whole of a mark that stands apart from what follows. -/
theorem find_mark {m : String} {cs : List Char} (hm : m ∈ marks)
    (hc : ∀ c ∈ cs.head?, c ∉ longer m) :
    marks.find? (fun m' => m'.toList.isPrefixOf (m.toList ++ cs)) = some m := by
  have hself : ∀ cs ∈ markLetters, markLetters.find? (·.isPrefixOf cs) = some cs := by decide
  have same : ∀ m' ∈ marks, m'.toList.isPrefixOf (m.toList ++ cs) = m'.toList.isPrefixOf m.toList := by
    intro m' hm'
    rw [Bool.eq_iff_iff, List.isPrefixOf_iff_prefix, List.isPrefixOf_iff_prefix]
    refine ⟨fun h => ?_, fun h => h.trans (List.prefix_append ..)⟩
    cases cs with
    | nil => rwa [List.append_nil] at h
    | cons c cs =>
      have hno : ¬ m.toList ++ [c] <+: m'.toList := fun h => hc c rfl (mem_longer hm' h)
      have hlong : m.toList ++ [c] <+: m.toList ++ c :: cs := ⟨cs, by simp⟩
      rcases List.prefix_or_prefix_of_prefix h hlong with h' | h'
      · exact (List.prefix_concat_iff.mp h').resolve_left fun e => hno (e ▸ List.prefix_rfl)
      · exact absurd h' hno
  rw [List.find?_congr same]
  have hfind := forall_marks hself m hm
  rw [← map_toList_marks, List.find?_map] at hfind
  obtain ⟨m', hm', he⟩ := Option.map_eq_some_iff.mp hfind
  exact hm'.trans (congrArg some (String.toList_inj.mp he))

/-- A lexed token is the next token of its spelling. -/
theorem next_spelling {t : Token} {cs : List Char} (ht : t.Lexed) (hc : t.Apart cs) :
    ∃ c rest, t.spelling ++ cs = c :: rest ∧ Lexeme.next c rest = .ok (some t, cs) := by
  have number : ∀ {text : String} {t : Token}, Lexeme.isNumber text.toList = true →
      Lexeme.numberToken text.toList = t → Lexeme.number cs = ([], cs) →
      ∃ c rest, text.toList ++ cs = c :: rest ∧ Lexeme.next c rest = .ok (some t, cs) := by
    intro text t hn ht hc
    cases hl : text.toList with
    | nil => rw [hl] at hn; cases hn
    | cons c ds =>
      rw [hl, Lexeme.isNumber, Bool.and_eq_true, Bool.and_eq_true, Bool.not_eq_true'] at hn
      obtain ⟨⟨hb, hd⟩, hds⟩ := hn
      refine ⟨c, ds ++ cs, rfl, ?_⟩
      have hslash : ¬ (c = '/' ∧ (ds ++ cs).head? = some '/') := fun h => by
        rw [h.1] at hd; exact absurd hd (by decide)
      rw [Lexeme.next, hb, if_neg Bool.false_ne_true, if_neg hslash, if_pos hd,
        Lexeme.number_append (beq_iff_eq.mp hds) hc, ← ht, hl]
  have literal : ∀ {quote : Char} (text : String), quote = '"' ∨ quote = '\'' →
      ∃ rest, (Quoted.literal quote text).toList ++ cs = quote :: rest
        ∧ Lexeme.content quote rest = .ok (text.toList, cs) := by
    intro quote text hq
    refine ⟨Quoted.encode quote text.toList ++ quote :: cs, ?_, Lexeme.content_encode hq ..⟩
    simp [Quoted.literal]
  cases t with
  | word text =>
    cases hl : text.toList with
    | nil => rw [Lexed, hl] at ht; cases ht
    | cons c ds =>
      rw [Lexed, hl, Lexeme.isWord, Bool.and_eq_true, Bool.and_eq_true, Bool.and_eq_true,
        Bool.not_eq_true', Bool.not_eq_true'] at ht
      obtain ⟨⟨⟨hb, hd⟩, hs⟩, hall⟩ := ht
      refine ⟨c, ds ++ cs, by rw [spelling, hl]; rfl, ?_⟩
      have hslash : ¬ (c = '/' ∧ (ds ++ cs).head? = some '/') := fun h => by
        rw [h.1] at hs; exact absurd hs (by decide)
      have hall' := List.all_eq_true.mp hall
      have htake : (ds ++ cs).takeWhile CharClass.continuesWord = ds := by
        rw [List.takeWhile_append_of_pos hall']
        cases cs with
        | nil => simp
        | cons a cs => simp [hc a rfl]
      have hdrop : (ds ++ cs).dropWhile CharClass.continuesWord = cs := by
        rw [List.dropWhile_append_of_pos hall']
        cases cs with
        | nil => rfl
        | cons a cs => simp [hc a rfl]
      rw [Lexeme.next, hb, if_neg Bool.false_ne_true, if_neg hslash, hd, if_neg Bool.false_ne_true,
        if_pos hs, htake, hdrop, ← hl, String.ofList_toList]
  | int text => exact number ht.1 ht.2 hc
  | long text => exact number ht.1 ht.2 hc
  | double text => exact number ht.1 ht.2 hc
  | string text =>
    obtain ⟨rest, hl, hr⟩ := literal text (.inl rfl)
    refine ⟨_, rest, hl, ?_⟩
    rw [Lexeme.next, if_neg (by decide), if_neg (by simp), if_neg (by decide), if_neg (by decide),
      if_pos rfl, hr]
    simp [Except.map]
  | char text =>
    obtain ⟨rest, hl, hr⟩ := literal text (.inr rfl)
    refine ⟨_, rest, hl, ?_⟩
    rw [Lexeme.next, if_neg (by decide), if_neg (by simp), if_neg (by decide), if_neg (by decide),
      if_neg (by decide), if_pos rfl, hr]
    simp [Except.map]
  | mark m =>
    obtain ⟨c, ds, hl, hb, hd, hs, hq, hq'⟩ := head_mark m ht
    have hfind := find_mark ht hc.1
    have hlen : m.length - 1 = ds.length := by rw [← String.length_toList, hl]; rfl
    have hslash : ¬ (c = '/' ∧ (ds ++ cs).head? = some '/') := by
      rintro ⟨rfl, hh⟩
      -- no other mark starts with a slash and goes on with one
      have hdiv : ∀ cs ∈ markLetters, cs.head? = some '/' → cs[1]? ≠ some '/' := by decide
      cases ds with
      | nil => exact hc.2 ⟨String.toList_inj.mp hl, hh⟩
      | cons d ds => exact forall_marks hdiv m ht (by rw [hl]; rfl) (by rw [hl]; exact hh)
    refine ⟨c, ds ++ cs, by rw [spelling, hl]; rfl, ?_⟩
    rw [hl, List.cons_append] at hfind
    rw [Lexeme.next, hb, if_neg Bool.false_ne_true, if_neg hslash, hd, if_neg Bool.false_ne_true, hs,
      if_neg Bool.false_ne_true, if_neg hq, if_neg hq', hfind]
    change Except.ok (some (mark m), (ds ++ cs).drop (m.length - 1)) = _
    rw [hlen, List.drop_left]

/-- What a character and those after it are read as comes before the tokens of what is left. -/
theorem ofChars_of_next {c : Char} {rest rest' : List Char} {o : Option Token}
    (h : Lexeme.next c rest = .ok (o, rest')) :
    ofChars (c :: rest) = (ofChars rest').map (o.toList ++ ·) := by
  rw [ofChars]
  split
  next he =>
    rw [h] at he
    cases he
  next he =>
    cases h.symm.trans he
    cases ofChars rest' <;> rfl

/-- The spelling of a token is read as the token, whatever stands apart from it after that. -/
theorem ofChars_spelling {t : Token} {cs : List Char} (ht : t.Lexed) (hc : t.Apart cs) :
    ofChars (t.spelling ++ cs) = (ofChars cs).map (t :: ·) := by
  obtain ⟨c, rest, hcs, hn⟩ := next_spelling ht hc
  rw [hcs, ofChars_of_next hn]
  rfl

/-- A literal in quotes of either kind is read as that literal, whatever its content is and whatever follows
it: the tokens after it are those of the text that follows, and if that has none, it fails for the same
reason. -/
theorem ofText_literal (content rest : String) :
    ofText ("\"" ++ Quoted.escape '"' content ++ "\"" ++ rest) =
      (ofText rest).map (string content :: ·) ∧
    ofText ("'" ++ Quoted.escape '\'' content ++ "'" ++ rest) =
      (ofText rest).map (char content :: ·) := by
  have hstring : ("\"" ++ Quoted.escape '"' content ++ "\"" ++ rest).toList =
      (string content).spelling ++ rest.toList := by
    simp [spelling, Quoted.literal, Quoted.escape]
  have hchar : ("'" ++ Quoted.escape '\'' content ++ "'" ++ rest).toList =
      (char content).spelling ++ rest.toList := by
    simp [spelling, Quoted.literal, Quoted.escape]
  constructor
  · rw [ofText, hstring]
    exact ofChars_spelling trivial trivial
  · rw [ofText, hchar]
    exact ofChars_spelling trivial trivial

theorem lexed_of_next {c : Char} {rest rest' : List Char} {t : Token}
    (h : Lexeme.next c rest = .ok (some t, rest')) : t.Lexed := by
  have literal : ∀ (mk : String → Token) {t : Token} {o : Except LexError (List Char × List Char)},
      (∀ text, (mk text).Lexed) →
      (o.map fun p => (some (mk (String.ofList p.1)), p.2)) = .ok (some t, rest') → t.Lexed := by
    intro mk t o hmk h
    cases o with
    | error => cases h
    | ok => cases h; exact hmk _
  unfold Lexeme.next at h
  split at h
  case isTrue => cases h
  case isFalse hb =>
  split at h
  case isTrue => cases h
  split at h
  case isTrue hd =>
    cases h
    refine lexed_numberToken ?_
    simp [Lexeme.isNumber, hb, hd, Lexeme.number_fst]
  case isFalse hd =>
  split at h
  case isTrue hs =>
    cases h
    have : (rest.takeWhile CharClass.continuesWord).all CharClass.continuesWord = true :=
      List.all_takeWhile
    simp [Lexed, Lexeme.isWord, hb, hd, hs, this]
  split at h
  case isTrue => exact literal string (fun _ => trivial) h
  split at h
  case isTrue => exact literal char (fun _ => trivial) h
  split at h
  case h_1 m hm =>
    cases h
    exact List.mem_of_find?_eq_some hm
  case h_2 => cases h

/-- The tokens of a text are lexed. -/
theorem lexed_of_ofChars {cs : List Char} {ts : List Token} (h : ofChars cs = .ok ts) :
    ∀ t ∈ ts, t.Lexed := by
  fun_induction ofChars cs generalizing ts with
  | case1 => cases h; simp
  | case2 => cases h
  | case3 => cases h
  | case4 c rest o rest' hn us hr ih =>
    cases h
    intro t ht
    rcases List.mem_append.mp ht with ht | ht
    · rw [Option.mem_toList] at ht
      cases ht
      exact lexed_of_next hn
    · exact ih hr t ht

/-- Characters that end every token before them, a point only where no digit follows. -/
def separators : List Char := [' ', '\n', '(', ')', '\x7b', '\x7d', '[', ']', ';', ',', '.']

/-- Whether a text belongs to no token before it. -/
def severs : List Char → Bool
  | [] => true
  | c :: cs => separators.contains c && !(c == '.' && cs.head?.any Char.isDigit)

theorem apart_of_severs {t : Token} {cs : List Char} (ht : t.Lexed) (h : severs cs = true) :
    t.Apart cs := by
  have char : ∀ c ∈ cs.head?, c ∈ separators := by
    intro c hc
    obtain ⟨cs', rfl⟩ := List.head?_eq_some_iff.mp hc
    exact List.contains_iff_mem.mp (Bool.and_eq_true_iff.mp h).1
  have number : Lexeme.number cs = ([], cs) := by
    cases cs with
    | nil => rfl
    | cons c cs =>
      have hn : ∀ c ∈ separators, CharClass.continuesNumber c = false := by decide
      have hp : (c == '.' && cs.head?.any Char.isDigit) = false :=
        Bool.eq_false_of_not_eq_true' (Bool.and_eq_true_iff.mp h).2
      rw [Lexeme.number, hn c (char c rfl), Bool.false_or, hp]
      rfl
  cases t with
  | word =>
    have hw : ∀ c ∈ separators, CharClass.continuesWord c = false := by decide
    exact fun c hc => hw c (char c hc)
  | int | long | double => exact number
  | string | char => trivial
  | mark m =>
    have hl : ∀ cs ∈ markLetters, ∀ c ∈ lengthens cs, c ∉ separators := by decide
    refine ⟨fun c hc hm => forall_marks hl m ht c (longer_eq m ▸ hm) (char c hc), fun hs => ?_⟩
    exact absurd (char '/' hs.2) (by decide)

/-- Whether a token can be the last of an operand. -/
def endsOperand : Token → Bool
  | mark m => m == ")" || m == "]" || m == "++" || m == "--"
  | _ => true

/-- Whether a text belongs to no operand before it. -/
def trails (cs : List Char) : Bool := severs cs || cs.head?.any [':', '+', '-'].contains

theorem apart_of_trails {t : Token} {cs : List Char} (ht : t.Lexed) (hl : t.endsOperand = true)
    (h : trails cs = true) : t.Apart cs := by
  refine (Bool.or_eq_true_iff.mp h).elim (apart_of_severs ht) fun h => ?_
  cases cs with
  | nil => cases h
  | cons c cs =>
    have hc : c ∈ [':', '+', '-'] := List.contains_iff_mem.mp h
    cases t with
    | word =>
      have hw : ∀ c ∈ [':', '+', '-'], CharClass.continuesWord c = false := by decide
      intro d hd
      cases hd
      exact hw c hc
    | int | long | double =>
      have hn : ∀ c ∈ [':', '+', '-'], (CharClass.continuesNumber c || c == '.') = false := by decide
      obtain ⟨h₁, h₂⟩ := Bool.or_eq_false_iff.mp (hn c hc)
      change Lexeme.number (c :: cs) = _
      rw [Lexeme.number, h₁, h₂]
      rfl
    | string | char => trivial
    | mark m =>
      have hm : m ∈ [")", "]", "++", "--"] := by simpa [endsOperand, or_assoc] using hl
      have hl : ∀ m ∈ [")", "]", "++", "--"], lengthens m.toList = [] := by decide
      refine ⟨fun _ _ => by simp [longer_eq, hl m hm], fun hs => ?_⟩
      rw [hs.1] at hm
      exact absurd hm (by decide)

end Token

/-- Characters that spell tokens, with blanks between them. -/
inductive Spells : List Char → List Token → Prop
  | nil : Spells [] []
  | blank {c : Char} {cs : List Char} {ts : List Token} :
      CharClass.isBlank c = true → Spells cs ts → Spells (c :: cs) ts
  | token {t : Token} {cs : List Char} {ts : List Token} :
      t.Lexed → t.Apart cs → Spells cs ts → Spells (t.spelling ++ cs) (t :: ts)

theorem Spells.eq_nil {ts : List Token} (h : Spells [] ts) : ts = [] := by
  generalize hcs : ([] : List Char) = cs at h
  cases h with
  | nil => rfl
  | blank => cases hcs
  | token ht _ _ => exact absurd (List.append_eq_nil_iff.mp hcs.symm).1 (Token.spelling_ne_nil ht)

/-- The tokens of a text are those that it spells. -/
theorem Spells.ofChars {cs : List Char} {ts : List Token} (h : Spells cs ts) :
    Token.ofChars cs = .ok ts := by
  induction h with
  | nil => rw [Token.ofChars]
  | @blank c cs ts hc _ ih =>
    have hn : Lexeme.next c cs = .ok (none, cs) := by rw [Lexeme.next, if_pos hc]
    rw [Token.ofChars_of_next hn, ih]
    rfl
  | token ht hc _ ih =>
    rw [Token.ofChars_spelling ht hc, ih]
    rfl

end TreeTidy
