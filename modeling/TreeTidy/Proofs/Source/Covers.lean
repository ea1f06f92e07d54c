import TreeTidy.Proofs.Source.Formed
/-!
Texts that are put together spell the tokens of their parts one after the other. Blanks, brackets and
commas keep the tokens on either side apart.
-/
namespace TreeTidy

namespace Spells

open Token (severs trails)

variable {cs : List Char} {ts : List Token}

theorem cut {t : Token} (ht : t.Lexed) (hcs : severs cs = true) (h : Spells cs ts) :
    Spells (t.spelling ++ cs) (t :: ts) :=
  token ht (Token.apart_of_severs ht hcs) h

/-- Some marks are part of no other. -/
theorem stands_alone {m : String} (hm : m ∈ ["(", ")", "\x7b", "\x7d", "[", "]", ";", ",", ".", "?"]) :
    m ∈ Token.marks ∧ Token.longer m = [] ∧ m ≠ "/" := by
  have hmarks : ["(", ")", "\x7b", "\x7d", "[", "]", ";", ",", ".", "?"] <:+: Token.marks :=
    ⟨Token.marks.take 24, Token.marks.drop 34, rfl⟩
  have hl : ∀ m ∈ ["(", ")", "\x7b", "\x7d", "[", "]", ";", ",", ".", "?"],
      Token.lengthens m.toList = [] ∧ m ≠ "/" := by decide
  exact ⟨hmarks.mem hm, (Token.longer_eq m).trans (hl m hm).1, (hl m hm).2⟩

theorem lone {m : String} (hm : m ∈ ["(", ")", "\x7b", "\x7d", "[", "]", ";", ",", ".", "?"])
    (h : Spells cs ts) : Spells (m.toList ++ cs) (.mark m :: ts) :=
  have ⟨hmark, hlong, hslash⟩ := stands_alone hm
  token (t := .mark m) hmark ⟨fun c _ => by simp [hlong], fun h => hslash h.1⟩ h

/-- A mark with blanks around it. -/
theorem spaced {m : String} (hm : m ∈ Token.marks) (h : Spells cs ts) :
    Spells (' ' :: (m.toList ++ ' ' :: cs)) (.mark m :: ts) :=
  blank rfl (cut (t := .mark m) hm rfl (blank rfl h))

theorem closers (n : Nat) (hcs : severs cs = true) (h : Spells cs ts) :
    Spells (List.replicate n '>' ++ cs) (Token.closers n ++ ts) := by
  have hend : ∀ n, ∀ c ∈ (List.replicate n '>' ++ cs).head?, c ≠ '=' := by
    intro n c hc
    cases n with
    | zero =>
      rintro rfl
      obtain ⟨cs', rfl⟩ := List.head?_eq_some_iff.mp hc
      exact absurd hcs (by simp [severs, Token.separators])
    | succ n => cases hc; decide
  induction n using Token.closers.induct with
  | case1 => exact h
  | case2 => exact cut (t := .mark ">") (by decide) hcs h
  | case3 => exact cut (t := .mark ">>") (by decide) hcs h
  | case4 n ih =>
    have hlong : Token.longer ">>>" = ['='] := (Token.longer_eq _).trans (by decide)
    refine token (t := .mark ">>>") (by decide) ⟨fun c hc => ?_, fun h => absurd h.1 (by decide)⟩ ih
    rw [hlong, List.mem_singleton]
    exact hend n c hc

theorem path {path : String} (hp : IsPath path) (hcs : ∀ w, (Token.word w).Apart cs)
    (h : Spells cs ts) : Spells (path.toList ++ cs) (Token.ofPath path ++ ts) := by
  obtain ⟨first, parts, hn, rfl⟩ := hp
  rw [ofPath_intercalate hn, String.toList_intercalate]
  induction parts generalizing first with
  | nil => simpa [Token.ofParts, Token.spelling] using token (hn first (by simp)).1 (hcs first) h
  | cons n parts ih =>
    rw [List.map_cons, List.map_cons, List.intercalate_cons_cons, List.append_assoc,
      List.append_assoc]
    exact token (t := .word first) (hn first (by simp)).1 (fun c hc => by cases hc; decide)
      (lone (by decide) (ih n fun m hm => hn m (List.mem_cons_of_mem _ hm)))

end Spells


/-- The text spells the tokens if no token goes on after it. -/
def Covers (text : String) (us : List Token) : Prop :=
  ∀ ⦃cs : List Char⦄ ⦃ts : List Token⦄, Token.severs cs = true → Spells cs ts →
    Spells (text.toList ++ cs) (us ++ ts)

/-- Whether a text is blank, and not empty. -/
def IsGap (text : String) : Prop :=
  text.toList ≠ [] ∧ ∀ c ∈ text.toList, c = ' ' ∨ c = '\n'

namespace IsGap

variable {gap : String} {cs : List Char} {ts : List Token}

theorem line (depth : Nat) : IsGap (Print.line depth) := by
  rw [IsGap, Print.line, String.toList_ofList]
  refine ⟨List.cons_ne_nil _ _, fun c hc => ?_⟩
  rcases List.mem_cons.mp hc with rfl | hc
  · exact .inr rfl
  · exact .inl (List.eq_of_mem_replicate hc)

theorem append {gap' : String} (h : IsGap gap) (h' : IsGap gap') : IsGap (gap ++ gap') := by
  rw [IsGap, String.toList_append]
  refine ⟨by simp [h.1], fun c hc => ?_⟩
  exact (List.mem_append.mp hc).elim (h.2 c) (h'.2 c)

theorem severs (h : IsGap gap) (cs : List Char) : Token.severs (gap.toList ++ cs) = true := by
  match hg : gap.toList, h.1 with
  | c :: g, _ =>
    rcases h.2 c (by rw [hg]; exact List.mem_cons_self) with rfl | rfl <;> rfl

theorem spells (hg : IsGap gap) (h : Spells cs ts) : Spells (gap.toList ++ cs) ts := by
  have all : ∀ g : List Char, (∀ c ∈ g, c = ' ' ∨ c = '\n') → Spells (g ++ cs) ts := by
    intro g hg
    induction g with
    | nil => exact h
    | cons c g ih =>
      have hb : CharClass.isBlank c = true := by
        rcases hg c List.mem_cons_self with rfl | rfl <;> rfl
      exact .blank hb (ih fun c hc => hg c (List.mem_cons_of_mem _ hc))
  exact all _ hg.2

end IsGap

namespace Covers

open Spells (blank lone)

variable {α : Type} {f : α → String} {g : α → List Token} {text text' sep : String}
  {us us' : List Token}

theorem empty : Covers "" [] := fun _ _ _ h => h

/-- Texts with gaps between them spell their tokens one after the other. -/
theorem joined (hg : IsGap sep) {l : List α} (h : ∀ a ∈ l, Covers (f a) (g a)) :
    Covers (sep.intercalate (l.map f)) (l.map g).flatten := by
  induction l with
  | nil => exact empty
  | cons a l ih =>
    have ha := h a List.mem_cons_self
    have hl := ih fun b hb => h b (List.mem_cons_of_mem _ hb)
    cases l with
    | nil => simpa using ha
    | cons b l =>
      intro cs ts hcs hts
      rw [List.map_cons, List.map_cons, String.intercalate_cons_cons, String.toList_append,
        String.toList_append, List.map_cons, List.flatten_cons, List.append_assoc, List.append_assoc,
        List.append_assoc]
      exact ha (hg.severs _) (hg.spells (hl hcs hts))

/-- Texts with a gap before each spell their tokens one after the other. -/
theorem preceded (hg : IsGap sep) {l : List α} (h : ∀ a ∈ l, Covers (f a) (g a)) :
    Covers (String.join ((l.map f).map (sep ++ ·))) (l.map g).flatten := by
  induction l with
  | nil => exact empty
  | cons a l ih =>
    have ha := h a List.mem_cons_self
    have hl := ih fun b hb => h b (List.mem_cons_of_mem _ hb)
    intro cs ts hcs hts
    rw [List.map_cons, List.map_cons, String.join_cons, String.toList_append, String.toList_append,
      List.map_cons, List.flatten_cons, List.append_assoc, List.append_assoc, List.append_assoc]
    refine hg.spells (ha ?_ (hl hcs hts))
    cases l with
    | nil => exact hcs
    | cons b l =>
      rw [List.map_cons, List.map_cons, String.join_cons, String.toList_append, String.toList_append,
        List.append_assoc, List.append_assoc]
      exact hg.severs _

theorem commas {l : List α} (h : ∀ a ∈ l, Covers (f a) (g a)) :
    Covers (Print.commas (l.map f)) (Token.commas (l.map g)) := by
  induction l with
  | nil => exact empty
  | cons a l ih =>
    have ha := h a List.mem_cons_self
    have hl := ih fun b hb => h b (List.mem_cons_of_mem _ hb)
    cases l with
    | nil => simpa [Print.commas, Token.commas] using ha
    | cons b l =>
      intro cs ts hcs hts
      rw [Print.commas, Token.commas, List.map_cons, List.map_cons, String.intercalate_cons_cons,
        String.toList_append, String.toList_append, List.map_cons, List.map_cons,
        List.intercalate_cons_cons, List.append_assoc, List.append_assoc, List.append_assoc,
        List.append_assoc]
      exact ha rfl (lone (m := ",") (by decide) (blank rfl (hl hcs hts)))

variable {cs : List Char} {ts : List Token}

theorem parens (h : Covers text us) (hts : Spells cs ts) :
    Spells ("(".toList ++ (text.toList ++ (")".toList ++ cs))) (Token.inParens us ++ ts) := by
  rw [Token.inParens, List.append_assoc]
  exact lone (by decide) (h rfl (lone (by decide) hts))

theorem statements (depth : Nat) {l : List α} (h : ∀ a ∈ l, Covers (f a) (g a)) (hts : Spells cs ts) :
    Spells ((Print.statements depth (l.map f)).toList ++ cs)
      (Token.inBraces (l.map g).flatten ++ ts) := by
  rw [Token.inBraces, List.append_assoc]
  unfold Print.statements
  cases l with
  | nil =>
    rw [List.map_nil, List.isEmpty_nil, if_pos rfl]
    exact lone (m := "\x7b") (by decide) (lone (m := "\x7d") (by decide) hts)
  | cons a l =>
    change Spells (("\x7b" ++ String.join (((a :: l).map f).map (Print.line (depth + 1) ++ ·))
      ++ Print.line depth ++ "\x7d").toList ++ cs) _
    simp only [String.toList_append, List.append_assoc]
    exact lone (by decide) (preceded (.line _) h ((IsGap.line depth).severs _)
      ((IsGap.line depth).spells (lone (by decide) hts)))

theorem members (depth : Nat) {l : List α} (h : ∀ a ∈ l, Covers (f a) (g a)) (hts : Spells cs ts) :
    Spells ((Print.members depth (l.map f)).toList ++ cs)
      (Token.inBraces (l.map g).flatten ++ ts) := by
  rw [Token.inBraces, List.append_assoc]
  unfold Print.members
  cases l with
  | nil =>
    rw [List.map_nil, List.isEmpty_nil, if_pos rfl]
    exact lone (m := "\x7b") (by decide) (lone (m := "\x7d") (by decide) hts)
  | cons a l =>
    have hgap : IsGap ("\n" ++ Print.line (depth + 1)) := IsGap.append ⟨by decide, by decide⟩ (.line _)
    change Spells (("\x7b" ++ Print.line (depth + 1)
      ++ ("\n" ++ Print.line (depth + 1)).intercalate ((a :: l).map f) ++ Print.line depth
      ++ "\x7d").toList ++ cs) _
    simp only [String.toList_append, List.append_assoc]
    exact lone (by decide) ((IsGap.line _).spells (joined hgap h ((IsGap.line depth).severs _)
      ((IsGap.line depth).spells (lone (by decide) hts))))

end Covers

end TreeTidy
