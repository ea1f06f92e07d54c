import TreeTidy.Command.Arguments
import TreeTidy.Command.Config
import TreeTidy.Files.Path
import TreeTidy.Print.Source
import TreeTidy.Rules.Standard
import TreeTidy.Unit.Pool
import TreeTidy.Unit.Tidy
/-!
What the commands do, on any host. A command that fails says why and leaves the exit code 1; a batch
goes on after a unit that fails, and reads all units before it writes the first.
-/
namespace TreeTidy

/-- Why a unit was not tidied or not written. -/
inductive UnitError
  | unreadable (path : String) (cause : FileError)
  | unloadable (cause : LoadError)
  | endless
  | unwritable (path : String) (cause : FileError)
  deriving DecidableEq, Repr

def UnitError.message : UnitError → String
  | unreadable path cause => "cannot read " ++ path ++ ": " ++ cause.text
  | unloadable cause => cause.message
  | endless => "a pass does not come to an end"
  | unwritable path cause => "cannot write " ++ path ++ ": " ++ cause.text

/-- Why a command failed. -/
inductive Failure
  | config (cause : ConfigError)
  | catalog (cause : CatalogError)
  | schedule (cause : ScheduleError)
  | unit (cause : UnitError)
  | collision (cause : OutputCollision)
  | file (cause : FileError)
  | units (failed all : Nat)
  deriving DecidableEq, Repr

def Failure.message : Failure → String
  | config cause => cause.message
  | catalog cause => cause.message
  | schedule cause => cause.message
  | unit cause => cause.message
  | collision cause => cause.message
  | file cause => cause.text
  | units failed all => toString failed ++ " of " ++ toString all ++ " unit(s) failed"

/-- More visits than a pass can make before memory runs out. -/
def ampleFuel : Nat := Numeral.bound 40

/-- Tidies the unit in a file that was read. -/
def tidyText (table : Timetable) (limits : Limits) (file : String × Except FileError String) :
    Except UnitError Tidied := do
  let text ← file.2.mapError (.unreadable file.1)
  let unit ← (SourceUnit.read 1 text).mapError .unloadable
  match unit.tidy table limits ampleFuel with
  | some r => pure r
  | none => throw .endless

namespace Command

variable {m : Type → Type} [Monad m]

/-- A part of a command. -/
abbrev Part (m : Type → Type) (α : Type) := ExceptT Failure m α

def orFail {ε α : Type} (f : ε → Failure) (r : Except ε α) : Part m α :=
  ExceptT.mk (pure (r.mapError f))

/-- The configuration in a file, or the standard one without a file. -/
def loadConfig (h : Host m) : Option String → Part m Config
  | none => pure Config.standard
  | some path => do
    let text ← orFail (fun e => .config (.unreadable path e)) (← h.read path)
    orFail .config (Config.read path text)

def standardCatalog : Part m Catalog := orFail .catalog Rules.catalog?

def listRules (h : Host m) (drafts : Bool) : Part m Unit := do
  let catalog ← standardCatalog
  h.say (catalog.listing drafts)

def listSchedule (h : Host m) (config : Option String) : Part m Unit := do
  let config ← loadConfig h config
  let catalog ← standardCatalog
  let schedule ← orFail .schedule (Schedule.ofSelection catalog config.selection)
  h.say schedule.listing

/-- Writes a unit; says whether that failed. -/
def writeUnit (h : Host m) (path : String) (u : SourceUnit) : m (Except UnitError Unit) := do
  let r ← h.write path u.write
  pure (r.mapError (.unwritable path))

/-- Tidies one unit. It is read before rules are scheduled, and written over itself or elsewhere,
unless it is only to be printed. -/
def tidyOne (h : Host m) (unit : String) (config out : Option String) (print : Bool) :
    Part m Unit := do
  let config ← loadConfig h config
  let catalog ← standardCatalog
  let text ← h.read unit
  let text ← orFail (fun e => .unit (.unreadable unit e)) text
  let source ← orFail (fun e => .unit (.unloadable e)) (SourceUnit.read 1 text)
  let table ← orFail .schedule (Timetable.ofSelection catalog config.selection)
  match source.tidy table config.limits ampleFuel with
  | none => throw (.unit .endless)
  | some r =>
    if print then
      h.warn r.summary
      h.say (r.unit.tree.print ++ "\n")
    else
      let written ← (writeUnit h (out.getD unit) r.unit : m _)
      orFail .unit written
      h.say r.summary

/-- Writes one result of a batch; says whether that failed. -/
def settle (h : Host m) (unit place : String) (result : Except UnitError Tidied) : m Bool := do
  let written ← match result with
    | .error e => pure (.error e)
    | .ok r => do
      let w ← writeUnit h place r.unit
      pure (w.map fun _ => r)
  match written with
  | .ok r => do
    h.say r.summary
    pure false
  | .error e => do
    h.warn (unit ++ ": " ++ e.message ++ "\n")
    pure true

/-- Writes all results of a batch; gives the number of those that failed. -/
def settleAll (h : Host m) : List (String × String × Except UnitError Tidied) → m Nat
  | [] => pure 0
  | (unit, place, result) :: rest => do
    let failed ← settle h unit place result
    let more ← settleAll h rest
    pure (if failed then more + 1 else more)

def tidyBatch (h : Host m) (units : List String) (jobs : Option Nat)
    (config dir : Option String) : Part m Unit := do
  let config ← loadConfig h config
  let catalog ← standardCatalog
  let table ← orFail .schedule (Timetable.ofSelection catalog config.selection)
  let workers := (jobs.or config.jobs).getD 1
  if workers = 0 then throw (.config .noWorkers)
  let places ← orFail .collision (Outputs.assign dir units)
  match dir with
  | none => pure ()
  | some dir => do
    let made ← h.makeDirs dir
    orFail .file made
  let files ← units.mapM fun unit => do
    let text ← h.read unit
    pure (unit, text)
  let results := Pool.run workers (tidyText table config.limits) files
  let failed ← (settleAll h (units.zip (places.zip results)) : m Nat)
  if 0 < failed then throw (.units failed units.length)

def usage : String :=
  "usage: treetidy rules [--all]\n"
    ++ "       treetidy schedule [--config FILE]\n"
    ++ "       treetidy rewrite UNIT [--config FILE] [--out FILE] [--print]\n"
    ++ "       treetidy batch UNIT... [--jobs N] [--config FILE] [--out-dir DIR]\n"

def perform (h : Host m) : Command → Part m Unit
  | .rules drafts => listRules h drafts
  | .schedule config => listSchedule h config
  | .single unit config out print => tidyOne h unit config out print
  | .batch units jobs config dir => tidyBatch h units jobs config dir
  | .help => h.say usage

/-- Runs the command that arguments stand for and gives the exit code, 2 if they stand for none. -/
def run (h : Host m) (args : List String) : m Nat :=
  match Arguments.command? args with
  | none => do
    h.warn usage
    pure 2
  | some c => do
    match ← (perform h c).run with
    | .ok _ => pure 0
    | .error e => do
      h.warn ("error: " ++ e.message ++ "\n")
      pure 1

end Command

end TreeTidy
