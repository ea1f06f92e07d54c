import TreeTidy.Source.CharClass
/-!
Tokens of source text. Words include keywords; the content of a literal is kept without its quotes and
escapes; marks are operators and punctuation.
-/
namespace TreeTidy

inductive Token
  | word (text : String)
  | int (text : String)
  | long (text : String)
  | double (text : String)
  | string (text : String)
  | char (text : String)
  | mark (text : String)
  deriving DecidableEq, Repr

namespace Token

/-- All marks. A mark stands before its own beginnings, so the first that fits is the longest. -/
def marks : List String :=
  [">>>=", "<<=", ">>=", ">>>", "->", "::", "++", "--", "&&", "||", "==", "!=", "<=", ">=", "+=",
    "-=", "*=", "/=", "%=", "&=", "|=", "^=", "<<", ">>", "(", ")", "\x7b", "\x7d", "[", "]", ";",
    ",", ".", "?", ":", "=", "<", ">", "!", "~", "+", "-", "*", "/", "%", "&", "|", "^"]

/-- How much a token counts; a mark that can be split counts for each of its parts. -/
def weight : Token → Nat
  | mark ">>" => 2
  | mark ">>>" => 3
  | _ => 1

def shownHex (n : Nat) : String := String.ofList (Nat.toDigits 16 n)

/-- How a report shows one character of a token. -/
def shownChar (c : Char) : String :=
  if c = '"' then "\\\""
  else if c = '\\' then "\\\\"
  else if c = '\n' then "\\n"
  else if c = '\r' then "\\r"
  else if c = '\t' then "\\t"
  else if c = '\x00' then "\\0"
  else if CharClass.isShown c then c.toString
  else "\\u\x7b" ++ shownHex c.toNat ++ "\x7d"

def shownText (text : String) : String := "\"" ++ String.join (text.toList.map shownChar) ++ "\""

/-- How a report shows a token. -/
def shown : Token → String
  | word text => "Ident(" ++ shownText text ++ ")"
  | int text => "Int(" ++ shownText text ++ ")"
  | long text => "Long(" ++ shownText text ++ ")"
  | double text => "Double(" ++ shownText text ++ ")"
  | string text => "Str(" ++ shownText text ++ ")"
  | char text => "Char(" ++ shownText text ++ ")"
  | mark text => "Punct(" ++ shownText text ++ ")"

/-- How a report shows the token at a place, if there is one. -/
def shownAt : Option Token → String
  | some t => "Some(" ++ t.shown ++ ")"
  | none => "None"

end Token

end TreeTidy
