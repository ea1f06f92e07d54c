import TreeTidy.Source.CharTable
/-! What the characters of a source text are good for. -/
namespace TreeTidy.CharClass

def isAscii (c : Char) : Bool := c.toNat < 128

/-- White space separates tokens. -/
def isBlank (c : Char) : Bool :=
  if isAscii c then c == ' ' || (9 ≤ c.toNat && c.toNat ≤ 13) else CharTable.contains CharTable.blank c

def isAlphabetic (c : Char) : Bool :=
  if isAscii c then c.isAlpha else CharTable.contains CharTable.alphabetic c

def isAlphanumeric (c : Char) : Bool :=
  if isAscii c then c.isAlphanum
  else CharTable.contains CharTable.alphabetic c || CharTable.contains CharTable.numeric c

def isUpper (c : Char) : Bool :=
  if isAscii c then c.isUpper else CharTable.contains CharTable.upper c

/-- Whether a character is shown as it is; a blank is, other white space is not. -/
def isShown (c : Char) : Bool :=
  if isAscii c then 32 ≤ c.toNat && c.toNat < 127 else !CharTable.contains CharTable.hidden c

/-- Whether a word may start with the character. -/
def startsWord (c : Char) : Bool := isAlphabetic c || c == '_' || c == '$'

/-- Whether a word may go on with the character. -/
def continuesWord (c : Char) : Bool := isAlphanumeric c || c == '_' || c == '$'

/-- Whether a number may go on with the character, points apart. -/
def continuesNumber (c : Char) : Bool := c.isAlphanum || c == '_'

end TreeTidy.CharClass
