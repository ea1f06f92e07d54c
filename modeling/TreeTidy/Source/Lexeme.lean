import TreeTidy.Source.Token
/-!
Reading tokens off a text. White space and comments to the end of the line stand between tokens. In a
literal a backslash takes the next character with it: the letters `n`, `t` and `r` stand for a control
character, any other character for itself.
-/
namespace TreeTidy

/-- Why a text has no tokens. -/
inductive LexError
  | unterminated
  | danglingEscape
  | unexpected (c : Char)
  deriving DecidableEq, Repr

def LexError.message : LexError → String
  | unterminated => "unterminated literal"
  | danglingEscape => "dangling escape"
  | unexpected c => "unexpected character `" ++ c.toString ++ "`"

namespace Lexeme

/-- What a character stands for after a backslash. -/
def unescape (c : Char) : Char :=
  if c = 'n' then '\n' else if c = 't' then '\t' else if c = 'r' then '\r' else c

/-- The content of a literal up to its closing quote, and what follows it. -/
def content (quote : Char) : List Char → Except LexError (List Char × List Char)
  | [] => .error .unterminated
  | c :: rest =>
    if c = quote then .ok ([], rest)
    else if c = '\\' then
      match rest with
      | [] => .error .danglingEscape
      | e :: rest => (content quote rest).map fun (cs, rest) => (unescape e :: cs, rest)
    else (content quote rest).map fun (cs, rest) => (c :: cs, rest)

/-- What is left of a number after its first digit; a point belongs to it if a digit follows. -/
def number : List Char → List Char × List Char
  | [] => ([], [])
  | c :: rest =>
    if CharClass.continuesNumber c || (c == '.' && rest.head?.any Char.isDigit) then
      let (cs, rest) := number rest
      (c :: cs, rest)
    else ([], c :: rest)

/-- The token of a number. -/
def numberToken (cs : List Char) : Token :=
  let text := String.ofList cs
  let ends (a b : Char) := cs.getLast? == some a || cs.getLast? == some b
  if ends 'l' 'L' then .long text
  else if cs.contains '.' || ends 'd' 'D' then .double text
  else .int text

/-- What starts with a character: a token, or none for what stands between tokens, and the rest of the
text. -/
def next (c : Char) (rest : List Char) : Except LexError (Option Token × List Char) :=
  if CharClass.isBlank c then .ok (none, rest)
  else if c = '/' ∧ rest.head? = some '/' then .ok (none, rest.dropWhile (· ≠ '\n'))
  else if c.isDigit then
    let (cs, rest) := number rest
    .ok (some (numberToken (c :: cs)), rest)
  else if CharClass.startsWord c then
    .ok (some (.word (String.ofList (c :: rest.takeWhile CharClass.continuesWord))),
      rest.dropWhile CharClass.continuesWord)
  else if c = '"' then
    (content c rest).map fun (cs, rest) => (some (.string (String.ofList cs)), rest)
  else if c = '\'' then
    (content c rest).map fun (cs, rest) => (some (.char (String.ofList cs)), rest)
  else match Token.marks.find? fun m => m.toList.isPrefixOf (c :: rest) with
    | some m => .ok (some (.mark m), rest.drop (m.length - 1))
    | none => .error (.unexpected c)

theorem length_content {quote : Char} {cs : List Char} {r : List Char × List Char}
    (h : content quote cs = .ok r) : r.2.length ≤ cs.length := by
  fun_induction content quote cs generalizing r with
  | case1 => cases h
  | case2 rest => cases h; simp
  | case3 => cases h
  | case4 e rest _ ih =>
    match hc : content quote rest with
    | .error _ => rw [hc] at h; cases h
    | .ok (cs, rest') =>
      rw [hc] at h
      cases h
      have := ih hc
      simp only [List.length_cons] at *
      omega
  | case5 c rest _ _ ih =>
    match hc : content quote rest with
    | .error _ => rw [hc] at h; cases h
    | .ok (cs, rest') =>
      rw [hc] at h
      cases h
      have := ih hc
      simp only [List.length_cons] at *
      omega

theorem length_number (cs : List Char) : (number cs).2.length ≤ cs.length := by
  induction cs with
  | nil => simp [number]
  | cons c rest ih =>
    unfold number
    split
    · simp only [List.length_cons]; omega
    · simp

theorem length_dropWhile_le (p : Char → Bool) (cs : List Char) :
    (cs.dropWhile p).length ≤ cs.length := by
  induction cs with
  | nil => simp
  | cons c rest ih =>
    rw [List.dropWhile_cons]
    split
    · simp only [List.length_cons]; omega
    · simp

/-- What follows is never longer than what was there. -/
theorem length_next {c : Char} {rest : List Char} {r : Option Token × List Char}
    (h : next c rest = .ok r) : r.2.length ≤ rest.length := by
  unfold next at h
  split at h
  · cases h; simp
  split at h
  · cases h; exact length_dropWhile_le _ _
  split at h
  · cases h; exact length_number rest
  split at h
  · cases h; exact length_dropWhile_le _ _
  split at h
  · match hc : content c rest with
    | .error _ => rw [hc] at h; cases h
    | .ok p => rw [hc] at h; cases h; exact length_content hc
  split at h
  · match hc : content c rest with
    | .error _ => rw [hc] at h; cases h
    | .ok p => rw [hc] at h; cases h; exact length_content hc
  split at h
  · cases h; simp
  · cases h

end Lexeme

/-- The tokens of a text. -/
def Token.ofChars (cs : List Char) : Except LexError (List Token) :=
  match cs with
  | [] => .ok []
  | c :: rest =>
    match _h : Lexeme.next c rest with
    | .error e => .error e
    | .ok (t, rest') =>
      match Token.ofChars rest' with
      | .error e => .error e
      | .ok ts => .ok (t.toList ++ ts)
termination_by cs.length
decreasing_by
  have := Lexeme.length_next _h
  simp only [List.length_cons] at *
  omega

def Token.ofText (text : String) : Except LexError (List Token) := Token.ofChars text.toList

end TreeTidy
