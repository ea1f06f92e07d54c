import TreeTidy.Files.Host
import TreeTidy.Files.Path
/-!
A host without a machine: a directory with files and directories in it, and the texts that were said.
Paths lead from that directory; there is nothing to be found outside.
-/
namespace TreeTidy

/-- What there is at a place. -/
inductive Entry
  | dir
  | file (text : String)
  deriving DecidableEq, Repr

structure Store where
  entries : List (List String × Entry)
  said : String
  warned : String
  deriving Repr, Inhabited

namespace Store

def empty : Store := ⟨[], "", ""⟩

/-- What there is below the directory under the given names. -/
def entry? (s : Store) : List String → Option Entry
  | [] => some .dir
  | place => s.entries.lookup place

def put (s : Store) (place : List String) (e : Entry) : Store :=
  { s with entries := (place, e) :: s.entries.filter (·.1 ≠ place) }

/-- The place that a segment leads to from a directory. -/
def enter (s : Store) (dir : List String) (segment : String) : Except FileError (List String) :=
  match s.entry? dir with
  | none => .error .notFound
  | some (.file _) => .error .notDirectory
  | some .dir =>
    if segment = "." then .ok dir
    else if segment = ".." then if dir.isEmpty then .error .notFound else .ok dir.dropLast
    else .ok (dir ++ [segment])

/-- The place that segments lead to. -/
def locate (s : Store) (segments : List String) : Except FileError (List String) :=
  segments.foldlM (enter s) []

def segmentsOf (path : String) : Except FileError (List String) :=
  match Path.segments path with
  | [] => .error .notFound
  | ss => if Path.isAbsolute path then .error .notFound else .ok ss

def read (s : Store) (path : String) : Except FileError String := do
  let place ← s.locate (← segmentsOf path)
  match s.entry? place with
  | none => .error .notFound
  | some .dir => .error .isDirectory
  | some (.file text) => if Path.endsInSlash path then .error .notDirectory else pure text

def write (s : Store) (path text : String) : Except FileError Store := do
  let segments ← segmentsOf path
  let above ← s.locate segments.dropLast
  let place ← s.locate segments
  match s.entry? above with
  | none => .error .notFound
  | some (.file _) => .error .notDirectory
  | some .dir =>
    if Path.endsInSlash path || s.entry? place == some .dir then .error .isDirectory
    else pure (s.put place (.file text))

/-- Makes the directories that segments lead through, from one directory on. -/
def makeFrom (s : Store) (dir : List String) : List String → Except FileError Store
  | [] => .ok s
  | segment :: segments => do
    let place ← s.enter dir segment
    match s.entry? place with
    | some .dir => makeFrom s place segments
    | some (.file _) => .error (if segments.isEmpty then .alreadyThere else .notDirectory)
    | none => makeFrom (s.put place .dir) place segments

def makeDirs (s : Store) (path : String) : Except FileError Store := do
  makeFrom s [] (← segmentsOf path)

/-- A store with one more file and the directories above it. -/
def addFile (s : Store) (path text : String) : Store :=
  let above := (Path.segments path).dropLast
  match makeFrom s [] above with
  | .ok s => s.put (Path.segments path) (.file text)
  | .error _ => s

/-- Keeps the store when an operation fails. -/
def change (f : Store → Except FileError Store) : StateM Store (Except FileError Unit) := fun s =>
  match f s with
  | .ok s => (.ok (), s)
  | .error e => (.error e, s)

def host : Host (StateM Store) where
  read := fun path s => (s.read path, s)
  write := fun path text => change (·.write path text)
  makeDirs := fun path => change (·.makeDirs path)
  say := fun text s => ((), { s with said := s.said ++ text })
  warn := fun text s => ((), { s with warned := s.warned ++ text })

end Store

end TreeTidy
