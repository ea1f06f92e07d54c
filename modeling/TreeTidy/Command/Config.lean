import TreeTidy.Engine.Session
import TreeTidy.Files.Host
import TreeTidy.Json.Decode
/-!
Configurations: which rules are used, within which limits, and how many workers there are. Every field
may be left out, and no other field may be given.
-/
namespace TreeTidy

open Json

def Selection.ofJson (room : Nat) (v : Json) : Except Refusal Selection := do
  let given ← toRecord .shut ["include", "tags", "exclude", "include_draft", "language_level"] v
  let room ← enter room
  let names (field : String) := given.withDefault field [] (toList room fun _ => toText)
  let taken ← names "include"
  let tags ← names "tags"
  let leftOut ← names "exclude"
  let drafts ← given.withDefault "include_draft" false toBool
  let level ← given.withDefault "language_level" Level.standard toNat16
  pure ⟨taken, tags, leftOut, drafts, level⟩

def Limits.ofJson (room : Nat) (v : Json) : Except Refusal Limits := do
  let given ← toRecord .shut ["pass_bound", "retry_cap"] v
  let _ ← enter room
  let passBound ← given.withDefault "pass_bound" Limits.standard.passBound toNat64
  let retryCap ← given.withDefault "retry_cap" Limits.standard.retryCap toNat64
  pure ⟨passBound, retryCap⟩

structure Config where
  selection : Selection
  limits : Limits
  /-- The number of workers; without one the command chooses. -/
  jobs : Option Nat
  deriving DecidableEq, Repr

inductive ConfigError
  | unreadable (path : String) (cause : FileError)
  | refused (origin : String) (cause : Refusal)
  | noWorkers
  deriving DecidableEq, Repr

def ConfigError.message : ConfigError → String
  | unreadable path cause => "cannot read config " ++ path ++ ": " ++ cause.text
  | refused origin cause => "malformed config " ++ origin ++ ": " ++ cause.text
  | noWorkers => "`jobs` must be at least 1"

namespace Config

def standard : Config := ⟨.standard, .standard, none⟩

/-- A configuration as it is written, which may ask for no workers. -/
def decode (v : Json) : Except Refusal Config := do
  let given ← toRecord .shut ["selection", "driver", "jobs"] v
  let room ← enter roomOfText
  let selection ← given.withDefault "selection" .standard (Selection.ofJson room)
  let limits ← given.withDefault "driver" .standard (Limits.ofJson room)
  let jobs ← given.withDefault "jobs" none (toOption toNat64)
  pure ⟨selection, limits, jobs⟩

/-- The configuration that a value describes; the origin is named if there is none. -/
def ofJson (origin : String) (v : Json) : Except ConfigError Config :=
  match decode v with
  | .error e => .error (.refused origin e)
  | .ok c => if c.jobs = some 0 then .error .noWorkers else .ok c

/-- The configuration that a JSON text describes. -/
def read (origin text : String) : Except ConfigError Config :=
  match Json.read text with
  | .error e => .error (.refused origin e)
  | .ok v => ofJson origin v

end Config

end TreeTidy
