/-!
Closed sets of words. A `Coded` type lists its values and gives each the code under which it is
written in documents; reading a code looks it up in that list.
-/
namespace TreeTidy

class Coded (α : Type) where
  all : List α
  code : α → String

namespace Coded

variable {α : Type} [Coded α]

def ofCode? (s : String) : Option α :=
  (all (α := α)).find? (fun a => code a == s)

theorem code_of_ofCode? {s : String} {a : α} (h : ofCode? s = some a) : code a = s := by
  have := List.find?_some h
  simpa using this

end Coded

end TreeTidy
