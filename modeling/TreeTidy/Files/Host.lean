/-! What a command needs of its surroundings: files, and two channels to speak on. -/
namespace TreeTidy

inductive FileError
  | notFound
  | alreadyThere
  | notDirectory
  | isDirectory
  | other (text : String)
  deriving DecidableEq, Repr

def FileError.text : FileError → String
  | notFound => "No such file or directory (os error 2)"
  | alreadyThere => "File exists (os error 17)"
  | notDirectory => "Not a directory (os error 20)"
  | isDirectory => "Is a directory (os error 21)"
  | other text => text

structure Host (m : Type → Type) where
  read : (path : String) → m (Except FileError String)
  write : (path text : String) → m (Except FileError Unit)
  /-- Makes a directory and those above it, if they are not there. -/
  makeDirs : (path : String) → m (Except FileError Unit)
  say : (text : String) → m Unit
  warn : (text : String) → m Unit

end TreeTidy
