import TreeTidy.Numeral
/-!
The arguments of the command line. An option may be given once; its value is the next argument, or
follows the option at once, after `=` or, for an option of one letter, also without it. After `--`
no argument is an option.
-/
namespace TreeTidy

inductive Command
  | rules (drafts : Bool)
  | schedule (config : Option String)
  | single (unit : String) (config out : Option String) (print : Bool)
  | batch (units : List String) (jobs : Option Nat) (config dir : Option String)
  | help
  deriving DecidableEq, Repr

namespace Arguments

/-- What an option takes. -/
inductive Shape
  | flag
  | value
  deriving DecidableEq, Repr

/-- An option of a command: its long name, its letter and what it takes. -/
structure Known where
  name : String
  letter : Option Char
  shape : Shape
  deriving DecidableEq, Repr

/-- The arguments of one command, taken apart. -/
structure Given where
  flags : List String
  values : List (String × String)
  operands : List String
  deriving DecidableEq, Repr

namespace Given

def empty : Given := ⟨[], [], []⟩

/-- Adds a flag that was not given before. -/
def addFlag (g : Given) (name : String) : Option Given :=
  if g.flags.contains name then none else some { g with flags := name :: g.flags }

/-- Adds a value for an option that was not given before. -/
def addValue (g : Given) (name value : String) : Option Given :=
  if (g.values.lookup name).isSome then none
  else some { g with values := (name, value) :: g.values }

def addOperand (g : Given) (operand : String) : Given :=
  { g with operands := g.operands ++ [operand] }

/-- The value of an option that takes a path; a path is not empty. -/
def path? (g : Given) (name : String) : Option (Option String) :=
  match g.values.lookup name with
  | none => some none
  | some "" => none
  | some path => some (some path)

end Given

def dropEquals : List Char → List Char
  | '=' :: cs => cs
  | cs => cs

/-- Whether an argument can be the value of the option before it. -/
def isValue (arg : String) : Bool := !arg.startsWith "-" || arg == "-"

/-- What one argument says. -/
inductive Word
  | rest
  | long (name : String) (value : Option String)
  | letters (first : Char) (more : List Char)
  | operand
  deriving DecidableEq, Repr

def wordOf (arg : String) : Word :=
  match arg.toList with
  | ['-', '-'] => .rest
  | '-' :: '-' :: cs =>
    let name := cs.takeWhile (· ≠ '=')
    let value := cs.dropWhile (· ≠ '=')
    .long (String.ofList name)
      (if value.isEmpty then none else some (String.ofList (dropEquals value)))
  | '-' :: c :: cs => .letters c cs
  | _ => .operand

/-- The option of a letter, with what follows the letter. The only flag with a letter is the one that
asks for help. -/
def lettered? (known : List Known) (first : Char) (more : List Char) :
    Option (Known × Option String) :=
  (known.find? fun k => k.letter == some first).map fun k =>
    (k, if more.isEmpty then none else some (String.ofList (dropEquals more)))

/-- Takes arguments apart; none if one of them is not understood. -/
def parse (known : List Known) (g : Given) (args : List String) : Option Given :=
  match args with
  | [] => some g
  | arg :: args =>
    let option (k : Known) (value : Option String) : Option Given :=
      match k.shape, value with
      | .flag, none => (g.addFlag k.name).bind fun g => parse known g args
      | .flag, some _ => none
      | .value, some v => (g.addValue k.name v).bind fun g => parse known g args
      | .value, none =>
        match args with
        | v :: args =>
          if isValue v then (g.addValue k.name v).bind fun g => parse known g args else none
        | [] => none
    match wordOf arg with
    | .rest => some (args.foldl Given.addOperand g)
    | .long name value =>
      match known.find? (·.name == name) with
      | some k => option k value
      | none => none
    | .letters first more =>
      match lettered? known first more with
      | some (k, value) => option k value
      | none => none
    | .operand => parse known (g.addOperand arg) args
termination_by args.length

def logLevel : Known := ⟨"log-level", none, .value⟩

def help : Known := ⟨"help", some 'h', .flag⟩

def config : Known := ⟨"config", none, .value⟩

/-- The options of a command besides those that all commands have. -/
def optionsOf : String → List Known
  | "rules" => [⟨"all", none, .flag⟩]
  | "schedule" => [config]
  | "rewrite" => [config, ⟨"out", some 'o', .value⟩, ⟨"print", none, .flag⟩]
  | _ => [config, ⟨"jobs", some 'j', .value⟩, ⟨"out-dir", none, .value⟩]

def commandNames : List String := ["rules", "schedule", "rewrite", "batch"]

/-- The command that its name and arguments stand for. -/
def commandOf (name : String) (g : Given) : Option Command := do
  let configPath ← g.path? "config"
  match name, g.operands with
  | "rules", [] => some (.rules (g.flags.contains "all"))
  | "schedule", [] => some (.schedule configPath)
  | "rewrite", [unit] =>
    let out ← g.path? "out"
    if unit.isEmpty then none
    else some (.single unit configPath out (g.flags.contains "print"))
  | "batch", unit :: units =>
    let dir ← g.path? "out-dir"
    let jobs ← match g.values.lookup "jobs" with
      | none => some none
      | some text => (Numeral.below? (Numeral.bound 64) text).map some
    if (unit :: units).contains "" then none
    else some (.batch (unit :: units) jobs configPath dir)
  | _, _ => none

/-- The arguments of a named command. -/
def commandFrom (name : String) (args : List String) : Option Command :=
  if name = "help" then some .help
  else if !commandNames.contains name then none
  else do
    let g ← parse (logLevel :: help :: optionsOf name) Given.empty args
    if g.flags.contains "help" then some .help else commandOf name g

/-- The command that arguments stand for; before its name only the level of logs may be given. -/
def command? (args : List String) : Option Command :=
  match args with
  | [] => none
  | arg :: args =>
    match wordOf arg with
    | .operand => commandFrom arg args
    | .long "log-level" (some _) => beforeName args
    | .long "log-level" none =>
      match args with
      | v :: args => if isValue v then beforeName args else none
      | [] => none
    | .long "help" none => some .help
    | .letters 'h' [] => some .help
    | _ => none
where
  /-- The level of logs is given once. -/
  beforeName : List String → Option Command
    | [] => none
    | arg :: args =>
      match wordOf arg with
      | .operand => commandFrom arg args
      | .long "help" none => some .help
      | .letters 'h' [] => some .help
      | _ => none

end Arguments

end TreeTidy
