import TreeTidy.Command.Run
/-! The command line over the files of the machine. -/
namespace TreeTidy

def FileError.ofIO : IO.Error → FileError
  | .noFileOrDirectory .. => .notFound
  | .alreadyExists .. => .alreadyThere
  | .inappropriateType _ 20 _ => .notDirectory
  | .inappropriateType _ 21 _ => .isDirectory
  | e => .other (toString e)

/-- What an action gives, or why it could not be done. -/
def attempt {α : Type} (act : IO α) : IO (Except FileError α) := do
  try
    let a ← act
    pure (.ok a)
  catch e => pure (.error (.ofIO e))

def machine : Host IO where
  read := fun path => attempt (IO.FS.readFile path)
  write := fun path text => attempt (IO.FS.writeFile path text)
  makeDirs := fun path => attempt (IO.FS.createDirAll path)
  say := fun text => IO.print text
  warn := fun text => IO.eprint text

end TreeTidy

def main (args : List String) : IO UInt32 := do
  let code ← TreeTidy.Command.run TreeTidy.machine args
  pure (UInt32.ofNat code)
