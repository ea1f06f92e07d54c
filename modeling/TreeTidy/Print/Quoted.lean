/-!
The content of string and character literals between quotes: backslashes, line ends, tabs, returns
and the closing quote are written with a backslash before them.
-/
namespace TreeTidy.Quoted

/-- How one character is written. -/
def encodeChar (quote c : Char) : List Char :=
  if c = '\\' then ['\\', '\\']
  else if c = '\n' then ['\\', 'n']
  else if c = '\t' then ['\\', 't']
  else if c = '\r' then ['\\', 'r']
  else if c = quote then ['\\', c]
  else [c]

def encode (quote : Char) (cs : List Char) : List Char := cs.flatMap (encodeChar quote)

/-- The content of a literal, written for the given quote. -/
def escape (quote : Char) (text : String) : String := String.ofList (encode quote text.toList)

/-- A literal with its quotes. -/
def literal (quote : Char) (text : String) : String :=
  String.ofList (quote :: encode quote text.toList ++ [quote])

end TreeTidy.Quoted
