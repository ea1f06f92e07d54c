import Mathlib.Tactic.Common
import TreeTidy.Json.Read
import TreeTidy.Json.Write
/-!
Written text is read back. A value whose strings and keys have a text and whose numbers are whole is
what the reader finds in the text that the writer gives for it.
-/
namespace TreeTidy.Json

variable {v : Json} {vs read : List Json} {fs : List (String × Json)} {cs rest : List Char}
  {s : String} {c : Char} {level fuel n : Nat}

/-- Values that are written as they are: strings and keys have a text, numbers are whole. -/
inductive Plain : Json → Prop
  | null : Plain .null
  | bool (b : Bool) : Plain (.bool b)
  | nat (n : Nat) : Plain (.nat n)
  | text (s : String) : Plain (.text s)
  | arr {vs : List Json} (h : ∀ v ∈ vs, Plain v) : Plain (.arr vs)
  | record {fs : List (String × Json)} (h : ∀ f ∈ fs, Plain f.2) : Plain (.record fs)

/-- Fields that are named by texts, as an object holds them. -/
def keyed (fs : List (String × Json)) : List (Option String × Json) := fs.map fun (k, v) => (some k, v)

@[simp] theorem keyed_nil : keyed [] = [] := rfl

@[simp] theorem keyed_cons {k : String} : keyed ((k, v) :: fs) = (some k, v) :: keyed fs := rfl

theorem record_eq (fs : List (String × Json)) : record fs = obj (keyed fs) := rfl

/-! Strings -/

theorem hexValue?_hexDigit (h : n < 16) : hexValue? (hexDigit n) = some n := by
  revert n
  decide

/-- The escape of a control character stands for it. -/
theorem escape_control (h : c.toNat < 32) :
    escape ('u' :: '0' :: '0' :: hexDigit (c.toNat / 16) :: hexDigit (c.toNat % 16) :: cs) =
      .ok (some c, 5) := by
  have hz : hexValue? '0' = some 0 := by decide
  have hu : unit? '0' '0' (hexDigit (c.toNat / 16)) (hexDigit (c.toNat % 16)) = some c.toNat := by
    rw [unit?, hexValue?_hexDigit (by omega), hexValue?_hexDigit (by omega), hz]
    simp only [Option.bind_eq_bind, Option.bind_some, Option.pure_def]
    exact congrArg some (by omega)
  have hh : isHighSurrogate c.toNat = false := by simp [isHighSurrogate]; omega
  have hl : isLowSurrogate c.toNat = false := by simp [isLowSurrogate]; omega
  simp [escape, unicodeEscape, hu, hh, hl, Except.map]

/-- An escape is read as the character that it stands for. -/
theorem stringFrom_escape {read : List Char} {whole : Bool} {es : List Char}
    (h : escape (es ++ cs) = .ok (some c, es.length)) :
    stringFrom read whole ('\\' :: es ++ cs) = stringFrom (c :: read) whole cs := by
  rw [List.cons_append, stringFrom, if_neg (by decide), if_pos rfl, h]
  simp

/-- What is written for a character is read as that character. -/
theorem stringFrom_writeChar {read : List Char} {whole : Bool} :
    stringFrom read whole (writeChar c ++ cs) = stringFrom (c :: read) whole cs := by
  unfold writeChar
  split_ifs with h₁ h₂ h₃ h₄ h₅ h₆ h₇ h₈
  · subst h₁; exact stringFrom_escape rfl
  · subst h₂; exact stringFrom_escape rfl
  · subst h₃; exact stringFrom_escape rfl
  · subst h₄; exact stringFrom_escape rfl
  · subst h₅; exact stringFrom_escape rfl
  · subst h₆; exact stringFrom_escape rfl
  · subst h₇; exact stringFrom_escape rfl
  · exact stringFrom_escape (escape_control h₈)
  · rw [List.singleton_append, stringFrom, if_neg h₁, if_neg h₂, if_neg h₈]

theorem stringFrom_written {read ds : List Char} :
    stringFrom read true (ds.flatMap writeChar ++ '"' :: rest) =
      .ok (some (String.ofList (read.reverse ++ ds)), rest) := by
  induction ds generalizing read with
  | nil => simp [stringFrom]
  | cons d ds ih => simp [stringFrom_writeChar, ih]

theorem stringFrom_quoted :
    stringFrom [] true (s.toList.flatMap writeChar ++ '"' :: rest) = .ok (some s, rest) := by
  rw [stringFrom_written]
  simp

theorem toList_writeText :
    (writeText s).toList ++ rest = '"' :: (s.toList.flatMap writeChar ++ '"' :: rest) := by
  simp [writeText]

/-! Numbers -/

/-- A text after which no number goes on: it is at its end, or at the end of a line or an item. -/
def Stops (cs : List Char) : Prop := ∀ c ∈ cs.head?, c = ',' ∨ c = '\n'

theorem stops_nil : Stops [] := nofun

theorem stops_cons (h : c = ',' ∨ c = '\n') : Stops (c :: cs) := by
  intro d hd
  obtain rfl : c = d := by simpa using hd
  exact h

theorem toList_toString (n : Nat) : (toString n).toList = Nat.toDigits 10 n := by
  simp [Nat.repr_eq_ofList_toDigits]

theorem isDigit_toDigits (h : c ∈ Nat.toDigits 10 n) : c.isDigit = true :=
  Nat.isDigit_of_mem_toDigits (b := 10) (by decide) (by decide) h

/-- No number but zero starts with one. -/
theorem eq_zero_of_head? (h : (Nat.toDigits 10 n).head? = some '0') : n = 0 := by
  induction n using Nat.strongRecOn with
  | ind n ih =>
    rw [Nat.toDigits_eq_if (by decide)] at h
    split at h
    next hlt =>
      clear ih
      revert n
      decide
    next hge =>
      rw [List.head?_append, Option.or_of_isSome (by simp [Nat.toDigits_ne_nil])] at h
      have := ih (n / 10) (by omega) h
      omega

/-- The number that is written for `n` is `n`. -/
theorem Number.nat?_toString (n : Nat) : Number.nat? (toString n) = some n := by
  have hd : (Nat.toDigits 10 n).all Char.isDigit = true := List.all_eq_true.mpr fun _ => isDigit_toDigits
  rw [Number.nat?, toList_toString, Numeral.read?, if_pos ⟨Nat.toDigits_ne_nil, hd⟩]
  exact congrArg some (Nat.ofDigitChars_toDigits (by decide) (by decide))

theorem digits_append {ds : List Char} (hd : ∀ d ∈ ds, d.isDigit = true) (hn : ds ≠ [])
    (hr : Stops rest) : digits (ds ++ rest) = .ok (ds, rest) := by
  have ht : rest.takeWhile Char.isDigit = [] ∧ rest.dropWhile Char.isDigit = rest := by
    cases rest with
    | nil => exact ⟨rfl, rfl⟩
    | cons c cs => rcases hr c rfl with rfl | rfl <;> exact ⟨rfl, rfl⟩
  obtain ⟨d, ds, rfl⟩ := List.exists_cons_of_ne_nil hn
  rw [List.cons_append, digits, if_pos (hd d (.head _)), ← List.cons_append,
    List.takeWhile_append_of_pos hd, List.dropWhile_append_of_pos hd, ht.1, ht.2, List.append_nil]

theorem numberFrom_written (hr : Stops rest) :
    numberFrom [] (Nat.toDigits 10 n ++ rest) = .ok (.nat n, rest) := by
  have hz : ¬ ((Nat.toDigits 10 n).head? = some '0' ∧ Nat.toDigits 10 n ≠ ['0']) := by
    rintro ⟨hh, hne⟩
    rw [eq_zero_of_head? hh] at hne
    exact hne rfl
  have hw : wholePart (Nat.toDigits 10 n ++ rest) = .ok (Nat.toDigits 10 n, rest) := by
    rw [wholePart, digits_append (fun _ => isDigit_toDigits) Nat.toDigits_ne_nil hr]
    exact if_neg hz
  have hf : fractionPart rest = .ok ([], rest) := by
    cases rest with
    | nil => rfl
    | cons c cs => rcases hr c rfl with rfl | rfl <;> rfl
  have he : exponentPart rest = .ok ([], rest) := by
    cases rest with
    | nil => rfl
    | cons c cs => rcases hr c rfl with rfl | rfl <;> rfl
  simp only [numberFrom, hw, hf, he, bind, Except.bind, pure, Except.pure, List.nil_append,
    List.append_nil]
  rw [← toList_toString, String.ofList_toList, nat]

/-! Values -/

theorem skipBlank_lineBreak : skipBlank ((lineBreak level).toList ++ cs) = skipBlank cs := by
  have hb : ∀ c ∈ (lineBreak level).toList, isBlank c = true := by
    intro c hc
    rw [lineBreak, String.toList_ofList, List.mem_cons, List.mem_replicate] at hc
    rcases hc with rfl | ⟨-, rfl⟩ <;> rfl
  rw [skipBlank, List.dropWhile_append_of_pos hb]
  rfl

theorem isBlank_of_isDigit (h : c.isDigit = true) : isBlank c = false := by
  have : c ≠ ' ' ∧ c ≠ '\n' ∧ c ≠ '\t' ∧ c ≠ '\r' := by
    refine ⟨?_, ?_, ?_, ?_⟩ <;> (rintro rfl; revert h; decide)
  simp [isBlank, this]

/-- A value starts with a character that is no blank and closes nothing. -/
theorem Plain.starts (h : Plain v) (level : Nat) :
    ∃ c cs, (v.pretty level).toList = c :: cs ∧ isBlank c = false ∧ c ≠ ']' := by
  cases h with
  | null => exact ⟨'n', "ull".toList, by simp [pretty], by decide, by decide⟩
  | bool b => cases b <;> simp [pretty, isBlank]
  | nat n =>
    obtain ⟨c, cs, hc⟩ := List.exists_cons_of_ne_nil (Nat.toDigits_ne_nil (n := n) (b := 10))
    have hd : c.isDigit = true := isDigit_toDigits (by rw [hc]; exact .head _)
    refine ⟨c, cs, by rw [Json.nat, pretty, toList_toString, hc], isBlank_of_isDigit hd, ?_⟩
    rintro rfl
    revert hd
    decide
  | text s =>
    exact ⟨'"', _, (List.append_nil _).symm.trans toList_writeText, by decide, by decide⟩
  | @arr vs _ => cases vs <;> simp [pretty, isBlank]
  | @record fs _ =>
    obtain _ | ⟨⟨k, v⟩, fs⟩ := fs <;> simp [record_eq, pretty, isBlank]

theorem skipBlank_cons (h : isBlank c = false) : skipBlank (c :: cs) = c :: cs := by
  rw [skipBlank, List.dropWhile_cons, h]
  rfl

/-- The value is what the reader finds where the text of the value starts. -/
def Legible (v : Json) : Prop := ∀ (level fuel : Nat) (rest : List Char), Stops rest →
  (v.pretty level).toList.length < fuel →
    valueFrom fuel ((v.pretty level).toList ++ rest) = .ok (v, rest)

theorem legible_null : Legible .null := by
  intro level fuel rest _ hf
  obtain ⟨fuel, rfl⟩ := Nat.exists_eq_add_one_of_ne_zero (Nat.ne_zero_of_lt hf)
  rw [pretty, valueFrom]
  simp [skipBlank_cons, isBlank, wordFrom]

theorem legible_bool (b : Bool) : Legible (.bool b) := by
  intro level fuel rest _ hf
  obtain ⟨fuel, rfl⟩ := Nat.exists_eq_add_one_of_ne_zero (Nat.ne_zero_of_lt hf)
  rw [pretty, valueFrom]
  cases b <;> simp [skipBlank_cons, isBlank, wordFrom]

theorem legible_text (s : String) : Legible (.text s) := by
  intro level fuel rest _ hf
  obtain ⟨fuel, rfl⟩ := Nat.exists_eq_add_one_of_ne_zero (Nat.ne_zero_of_lt hf)
  rw [text, pretty, writeString, valueFrom, toList_writeText, skipBlank_cons (by decide)]
  simp only [stringFrom_quoted, bind, Except.bind, pure, Except.pure]

theorem legible_nat (n : Nat) : Legible (.nat n) := by
  intro level fuel rest hr hf
  obtain ⟨fuel, rfl⟩ := Nat.exists_eq_add_one_of_ne_zero (Nat.ne_zero_of_lt hf)
  have hn := numberFrom_written (n := n) hr
  obtain ⟨c, cs, hc⟩ := List.exists_cons_of_ne_nil (Nat.toDigits_ne_nil (n := n) (b := 10))
  have hd : c.isDigit = true := isDigit_toDigits (by rw [hc]; exact .head _)
  rw [Json.nat, pretty, toList_toString, valueFrom]
  rw [hc, List.cons_append] at hn ⊢
  rw [skipBlank_cons (isBlank_of_isDigit hd)]
  split <;> simp_all [Char.isDigit, Json.nat]

/-- The items from one of them on, up to the bracket that closes the array. -/
theorem itemsFrom_written (level close fuel : Nat) (read : List Json) (rest : List Char) (hp : Plain v) (hv : Legible v)
    (hvs : ∀ w ∈ vs, Plain w ∧ Legible w)
    (hf : (v.pretty level).toList.length + (prettyItems level vs).toList.length + 1 < fuel) :
    itemsFrom fuel read ((v.pretty level).toList ++ (prettyItems level vs).toList ++
      (lineBreak close).toList ++ ']' :: rest) = .ok (.arr (read.reverse ++ v :: vs), rest) := by
  induction vs generalizing v fuel read with
  | nil =>
    obtain ⟨fuel, rfl⟩ := Nat.exists_eq_add_one_of_ne_zero (Nat.ne_zero_of_lt hf)
    have hs : Stops ((lineBreak close).toList ++ ']' :: rest) := by
      simp only [lineBreak, String.toList_ofList, List.cons_append]
      exact stops_cons (.inr rfl)
    rw [itemsFrom, prettyItems, String.toList_empty, List.append_nil, List.append_assoc,
      hv _ _ _ hs (by simp only [prettyItems] at hf; omega)]
    simp only [skipBlank_lineBreak, skipBlank_cons (show isBlank ']' = false from rfl)]
    simp
  | cons w vs ih =>
    obtain ⟨fuel, rfl⟩ := Nat.exists_eq_add_one_of_ne_zero (Nat.ne_zero_of_lt hf)
    obtain ⟨hpw, hw⟩ := hvs w (.head _)
    have hlen : (prettyItems level (w :: vs)).toList.length =
        1 + (lineBreak level).toList.length + (w.pretty level).toList.length +
          (prettyItems level vs).toList.length := by
      simp [prettyItems, Nat.add_comm, Nat.add_assoc]
    have htail := ih fuel (v :: read) hpw hw (fun x hx => hvs x (.tail _ hx)) (by omega)
    have hshape : (prettyItems level (w :: vs)).toList ++ (lineBreak close).toList ++ ']' :: rest =
        ',' :: ((lineBreak level).toList ++ ((w.pretty level).toList ++ (prettyItems level vs).toList ++
          (lineBreak close).toList ++ ']' :: rest)) := by
      simp [prettyItems]
    rw [itemsFrom, List.append_assoc, List.append_assoc, ← List.append_assoc _ _ (']' :: rest), hshape,
      hv _ _ _ (stops_cons (.inl rfl)) (by omega)]
    obtain ⟨c, cs, hc, hb, hne⟩ := hpw.starts level
    simp only [skipBlank_cons (show isBlank ',' = false from rfl), skipBlank_lineBreak]
    rw [hc] at htail ⊢
    simp only [List.cons_append, skipBlank_cons hb] at htail ⊢
    split
    next heq => cases heq
    next heq => exact absurd (List.cons.inj heq).1 hne
    next => simpa using htail

theorem legible_arr (h : ∀ v ∈ vs, Plain v ∧ Legible v) : Legible (.arr vs) := by
  intro level fuel rest _ hf
  obtain ⟨fuel, rfl⟩ := Nat.exists_eq_add_one_of_ne_zero (Nat.ne_zero_of_lt hf)
  cases vs with
  | nil =>
    rw [pretty, valueFrom]
    simp [skipBlank_cons, isBlank]
  | cons v vs =>
    obtain ⟨hp, hv⟩ := h v (.head _)
    have hshape : (pretty level (.arr (v :: vs))).toList ++ rest =
        '[' :: ((lineBreak (level + 1)).toList ++ ((v.pretty (level + 1)).toList ++
          (prettyItems (level + 1) vs).toList ++ (lineBreak level).toList ++ ']' :: rest)) := by
      simp [pretty]
    have hlen : (v.pretty (level + 1)).toList.length + (prettyItems (level + 1) vs).toList.length + 2 ≤
        (pretty level (.arr (v :: vs))).toList.length := by
      simp only [pretty, String.toList_append, List.length_append]
      simp
      omega
    have hread := itemsFrom_written (level + 1) level fuel [] rest hp hv
      (fun w hw => h w (.tail _ hw)) (by omega)
    obtain ⟨c, cs, hc, hb, hne⟩ := hp.starts (level + 1)
    rw [hshape, valueFrom, skipBlank_cons (by decide)]
    simp only [skipBlank_lineBreak]
    rw [hc] at hread ⊢
    simp only [List.cons_append, skipBlank_cons hb] at hread ⊢
    split
    next heq => cases heq
    next heq => exact absurd (List.cons.inj heq).1 hne
    next => simpa using hread

/-- Blanks before a value are skipped. -/
theorem valueFrom_space : valueFrom fuel (' ' :: cs) = valueFrom fuel cs := by
  cases fuel with
  | zero => rfl
  | succ fuel => rw [valueFrom, valueFrom]; rfl

/-- The fields from one of them on, up to the brace that closes the object. -/
theorem fieldsFrom_written (level close fuel : Nat) (k : String) (read : List (Option String × Json))
    (rest : List Char) (hv : Legible v) (hfs : ∀ f ∈ fs, Legible f.2)
    (hf : (v.pretty level).toList.length + (prettyFields level (keyed fs)).toList.length + 1 < fuel) :
    fieldsFrom fuel read ((writeText k).toList ++ ':' :: ' ' :: ((v.pretty level).toList ++
      ((prettyFields level (keyed fs)).toList ++ ((lineBreak close).toList ++ '\x7d' :: rest)))) =
      .ok (.obj (read.reverse ++ (some k, v) :: keyed fs), rest) := by
  induction fs generalizing v k fuel read with
  | nil =>
    obtain ⟨fuel, rfl⟩ := Nat.exists_eq_add_one_of_ne_zero (Nat.ne_zero_of_lt hf)
    have hs : Stops ((lineBreak close).toList ++ '\x7d' :: rest) := by
      simp only [lineBreak, String.toList_ofList, List.cons_append]
      exact stops_cons (.inr rfl)
    have hread := hv level fuel _ hs (by omega)
    rw [toList_writeText, fieldsFrom]
    simp only [stringFrom_quoted, skipBlank_cons (show isBlank ':' = false from rfl), valueFrom_space,
      keyed_nil, prettyFields, String.toList_empty, List.nil_append, hread, skipBlank_lineBreak,
      skipBlank_cons (show isBlank '\x7d' = false from rfl), List.reverse_cons]
  | cons f fs ih =>
    obtain ⟨k', w⟩ := f
    obtain ⟨fuel, rfl⟩ := Nat.exists_eq_add_one_of_ne_zero (Nat.ne_zero_of_lt hf)
    have hlen : (w.pretty level).toList.length + (prettyFields level (keyed fs)).toList.length + 1 ≤
        (prettyFields level (keyed ((k', w) :: fs))).toList.length := by
      simp [prettyFields]
      omega
    have hw : Legible w := hfs (k', w) (.head _)
    have htail := ih fuel k' ((some k, v) :: read) hw (fun x hx => hfs x (.tail _ hx)) (by omega)
    have hread := hv level fuel (',' :: ((lineBreak level).toList ++ ((writeText k').toList ++ ':' ::
      ' ' :: ((w.pretty level).toList ++ ((prettyFields level (keyed fs)).toList ++
      ((lineBreak close).toList ++ '\x7d' :: rest)))))) (stops_cons (.inl rfl)) (by omega)
    have hshape : (prettyFields level (keyed ((k', w) :: fs))).toList ++
        ((lineBreak close).toList ++ '\x7d' :: rest) =
        ',' :: ((lineBreak level).toList ++ ((writeText k').toList ++ ':' :: ' ' ::
          ((w.pretty level).toList ++ ((prettyFields level (keyed fs)).toList ++
          ((lineBreak close).toList ++ '\x7d' :: rest))))) := by
      simp [prettyFields, writeString]
    rw [toList_writeText, fieldsFrom, hshape]
    rw [toList_writeText] at htail hread ⊢
    simp only [stringFrom_quoted, skipBlank_cons (show isBlank ':' = false from rfl), valueFrom_space,
      hread, skipBlank_cons (show isBlank ',' = false from rfl), skipBlank_lineBreak,
      skipBlank_cons (show isBlank '"' = false from rfl), htail, List.reverse_cons, List.append_assoc,
      List.singleton_append, keyed_cons]

theorem legible_record (h : ∀ f ∈ fs, Legible f.2) : Legible (.record fs) := by
  intro level fuel rest _ hf
  obtain ⟨fuel, rfl⟩ := Nat.exists_eq_add_one_of_ne_zero (Nat.ne_zero_of_lt hf)
  cases fs with
  | nil =>
    rw [record_eq, keyed_nil, pretty, valueFrom]
    simp [skipBlank_cons, isBlank]
  | cons f fs =>
    obtain ⟨k, v⟩ := f
    have hshape : (pretty level (record ((k, v) :: fs))).toList ++ rest =
        '\x7b' :: ((lineBreak (level + 1)).toList ++ ((writeText k).toList ++ ':' :: ' ' ::
          ((v.pretty (level + 1)).toList ++ ((prettyFields (level + 1) (keyed fs)).toList ++
          ((lineBreak level).toList ++ '\x7d' :: rest))))) := by
      simp [record_eq, pretty, writeString]
    have hlen : (v.pretty (level + 1)).toList.length +
        (prettyFields (level + 1) (keyed fs)).toList.length + 2 ≤
        (pretty level (record ((k, v) :: fs))).toList.length := by
      simp [record_eq, pretty]
      omega
    have hv : Legible v := h (k, v) (.head _)
    have hread := fieldsFrom_written (level + 1) level fuel k [] rest hv
      (fun w hw => h w (.tail _ hw)) (by omega)
    rw [hshape, valueFrom, skipBlank_cons (by decide)]
    rw [toList_writeText] at hread ⊢
    simp only [skipBlank_lineBreak, skipBlank_cons (show isBlank '"' = false from rfl)]
    exact hread

theorem Plain.legible (h : Plain v) : Legible v := by
  induction h with
  | null => exact legible_null
  | bool b => exact legible_bool b
  | nat n => exact legible_nat n
  | text s => exact legible_text s
  | arr h ih => exact legible_arr fun v hv => ⟨h v hv, ih v hv⟩
  | record h ih => exact legible_record ih

/-- What is written for a value is read as that value. -/
theorem Plain.read_pretty (h : Plain v) : Json.read (v.pretty level) = .ok v := by
  have hv := h.legible level ((v.pretty level).toList.length + 1) [] stops_nil (Nat.lt_succ_self _)
  rw [List.append_nil] at hv
  rw [Json.read]
  simp only [hv, bind, Except.bind]
  rfl

end TreeTidy.Json
