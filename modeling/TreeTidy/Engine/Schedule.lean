import TreeTidy.Engine.Selection
/-!
Schedules: the active rules in an order that keeps all constraints between them. Of the rules that may
come next, the one with the least id does. A constraint that only one of its two rules states is kept
too, and reported. A timetable has the schedules for all levels.
-/
namespace TreeTidy

/-- One rule has to run before another. -/
structure Precedence where
  before : String
  after : String
  deriving DecidableEq, Repr

namespace Precedence

def le (a b : Precedence) : Bool :=
  if a.before = b.before then decide (a.after ≤ b.after) else decide (a.before ≤ b.before)

end Precedence

/-- A constraint that only one rule states. -/
structure Lint where
  before : String
  after : String
  declaredBy : String
  deriving DecidableEq, Repr

def Lint.text (l : Lint) : String :=
  "`" ++ l.before ++ "` before `" ++ l.after ++ "` is declared only by `" ++ l.declaredBy ++ "`"

structure Schedule where
  rules : List Rule
  lints : List Lint

namespace Schedule

def ids (s : Schedule) : List String := s.rules.map Rule.id

/-- The constraints that a rule states on the active rules. -/
def stated (active : List String) (r : Rule) : List Precedence :=
  (r.info.after.filter active.contains).map (fun b => ⟨b, r.id⟩)
    ++ (r.info.before.filter active.contains).map fun a => ⟨r.id, a⟩

/-- All constraints between active rules, in order. -/
def edges (rules : List Rule) : List Precedence :=
  ((rules.flatMap (stated (rules.map Rule.id))).eraseDups).mergeSort Precedence.le

/-- The rules that state a constraint. -/
def declarers (rules : List Rule) (e : Precedence) : List String :=
  ((rules.filter fun r => (stated (rules.map Rule.id) r).contains e).map Rule.id)

/-- The constraints that one rule alone states. -/
def lintsOf (rules : List Rule) : List Lint :=
  (edges rules).filterMap fun e =>
    match declarers rules e with
    | [r] => some ⟨e.before, e.after, r⟩
    | _ => none

/-- Whether no rule that is still to be placed has to come before this one. -/
def isReady (es : List Precedence) (waiting : List String) (id : String) : Bool :=
  es.all fun e => e.after != id || !waiting.contains e.before

/-- Places the rules that wait, least id first among those that are ready; ends when none is. -/
def place (es : List Precedence) : (fuel : Nat) → (waiting : List String) → List String
  | 0, _ => []
  | fuel + 1, waiting =>
    match waiting.find? (isReady es waiting) with
    | none => []
    | some id => id :: place es fuel (waiting.erase id)

/-- Adds the direct followers of rules. -/
def follow (es : List Precedence) (ids : List String) : List String :=
  (ids ++ (es.filter fun e => ids.contains e.before).map Precedence.after).eraseDups

/-- The rules that have to run later than a rule, by one constraint or several. -/
def followers (es : List Precedence) (id : String) : List String :=
  (List.range es.length).foldl (fun ids _ => follow es ids)
    (((es.filter (·.before == id)).map Precedence.after).eraseDups)

/-- Whether constraints lead from a rule back to it. -/
def onCycle (es : List Precedence) (id : String) : Bool := (followers es id).contains id

/-- Orders rules that are sorted by id. -/
def ofRules (rules : List Rule) : Except ScheduleError Schedule :=
  let es := edges rules
  let ids := rules.map Rule.id
  let placed := place es ids.length ids
  if placed.length < ids.length then .error (.cycle (ids.filter (onCycle es)))
  else .ok ⟨placed.filterMap fun id => rules.find? (·.id == id), lintsOf rules⟩

/-- Orders the rules that are named by a sorted set of names. -/
def order (c : Catalog) (active : List String) : Except ScheduleError Schedule := do
  let rules ← active.mapM fun name =>
    match c.get? name with
    | some r => .ok r
    | none => .error (.unknownRule name)
  let ids := sortedSet (rules.map Rule.id)
  ofRules (ids.filterMap fun id => rules.find? (·.id == id))

/-- The schedule of the rules that a selection takes. -/
def ofSelection (c : Catalog) (s : Selection) : Except ScheduleError Schedule := do
  let active ← s.resolve c
  order c active

end Schedule

/-- The schedules of a selection for all levels at once. The active rules change only at the least levels
of rules, so one schedule for each of them, and one for level 0, is enough. -/
structure Timetable where
  /-- The schedule from level 0 on. -/
  base : Schedule
  /-- The schedules of higher levels, lowest level first. -/
  later : List (Level × Schedule)

namespace Timetable

/-- The schedule of a selection at another level than its own. -/
def scheduleOf (c : Catalog) (s : Selection) (level : Level) : Except ScheduleError Schedule :=
  Schedule.ofSelection c { s with level := level }

/-- The levels above 0 at which rules become active, lowest first. -/
def thresholds (c : Catalog) : List Level :=
  (((c.rules.map fun r => r.info.minLevel).filter (0 < ·)).mergeSort fun a b => decide (a ≤ b)).eraseDups

/-- Schedules all levels; the error is the one of the lowest level that has no schedule. -/
def ofSelection (c : Catalog) (s : Selection) : Except ScheduleError Timetable := do
  let base ← scheduleOf c s 0
  let later ← (thresholds c).mapM fun level => do
    let schedule ← scheduleOf c s level
    pure (level, schedule)
  pure ⟨base, later⟩

/-- The schedule for a level: that of the highest threshold not above it. -/
def scheduleAt (t : Timetable) (level : Level) : Schedule :=
  match (t.later.filter fun e => decide (e.1 ≤ level)).getLast? with
  | some (_, schedule) => schedule
  | none => t.base

end Timetable

end TreeTidy
