
/-!
Paths as texts. A path has components: slashes that repeat or end it do not count, nor does a single
dot unless it comes first.
-/
namespace TreeTidy.Path

inductive Component
  | root
  | here
  | up
  | normal (name : String)
  deriving DecidableEq, Repr

/-- The texts between the slashes. -/
def segments (path : String) : List String :=
  (path.toList.splitOn '/').map String.ofList |>.filter (· ≠ "")

def isAbsolute (path : String) : Bool := path.toList.head? == some '/'

def endsInSlash (path : String) : Bool := path.toList.getLast? == some '/'

def ofSegment (segment : String) : Component := if segment = ".." then .up else .normal segment

def components (path : String) : List Component :=
  let rest (ss : List String) := (ss.filter (· ≠ ".")).map ofSegment
  if isAbsolute path then .root :: rest (segments path)
  else match segments path with
    | "." :: ss => .here :: rest ss
    | ss => rest ss

/-- Whether two paths have the same components. -/
def same (p q : String) : Bool := components p == components q

/-- The last component, if it is a name. -/
def fileName? (path : String) : Option String :=
  match (components path).getLast? with
  | some (.normal name) => some name
  | _ => none

/-- A name below a directory. -/
def join (dir name : String) : String :=
  if dir.isEmpty || endsInSlash dir then dir ++ name else dir ++ "/" ++ name

end TreeTidy.Path

/-! Where the units of a batch are written. No two of them may be written to the same place. -/
namespace TreeTidy

/-- Two units that would be written to one place. -/
structure OutputCollision where
  path : String
  first : String
  second : String
  deriving DecidableEq, Repr

def OutputCollision.message (c : OutputCollision) : String :=
  c.first ++ " and " ++ c.second ++ " would both be written to " ++ c.path

namespace Outputs

/-- Where a unit is written: under its own name in the directory, or over itself if there is no
directory or the unit has no name. -/
def place (dir : Option String) (unit : String) : String :=
  match dir, Path.fileName? unit with
  | some dir, some name => Path.join dir name
  | _, _ => unit

/-- Places units after others, which are given with their places. -/
def assignAfter (dir : Option String) (taken : List (String × String)) :
    List String → Except OutputCollision (List String)
  | [] => .ok []
  | unit :: units =>
    let path := place dir unit
    match taken.find? fun t => Path.same t.2 path with
    | some (first, _) => .error ⟨path, first, unit⟩
    | none => (assignAfter dir ((unit, path) :: taken) units).map (path :: ·)

def assign (dir : Option String) (units : List String) : Except OutputCollision (List String) :=
  assignAfter dir [] units

end Outputs

end TreeTidy
