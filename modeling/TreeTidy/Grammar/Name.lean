/-!
Names: identifiers, dotted type names and literal texts are plain strings. A dotted name is read
through its parts: the part after the last dot is its simple name, the rest its qualifier.
-/
namespace TreeTidy.Name

/-- The segments between dots; a name without dots is its own only segment. -/
def segmentsOf : List Char → List (List Char)
  | [] => [[]]
  | c :: cs =>
    if c = '.' then [] :: segmentsOf cs
    else match segmentsOf cs with
      | [] => [[c]]
      | s :: ss => (c :: s) :: ss

def segments (name : String) : List String :=
  (segmentsOf name.toList).map String.ofList

theorem segmentsOf_ne_nil (cs : List Char) : segmentsOf cs ≠ [] := by
  cases cs with
  | nil => simp [segmentsOf]
  | cons c cs =>
    by_cases h : c = '.'
    · simp [segmentsOf, h]
    · simp only [segmentsOf, h, if_false]
      split <;> simp

/-- The characters after the last dot. -/
def afterLastDot (cs : List Char) : List Char :=
  (cs.reverse.takeWhile (· ≠ '.')).reverse

/-- The characters before the last dot, if there is a dot. -/
def beforeLastDot (cs : List Char) : Option (List Char) :=
  match cs.reverse.dropWhile (· ≠ '.') with
  | [] => none
  | _ :: rest => some rest.reverse

/-- `List` for `java.util.List`. -/
def simpleName (name : String) : String :=
  String.ofList (afterLastDot name.toList)

/-- `java.util` for `java.util.List`; a name without a dot has none. -/
def qualifier? (name : String) : Option String :=
  (beforeLastDot name.toList).map String.ofList

def isQualified (name : String) : Bool :=
  name.toList.contains '.'

/-- Whether the name is `start` followed by anything. -/
def startsWith (start name : String) : Bool :=
  start.toList.isPrefixOf name.toList

end TreeTidy.Name
