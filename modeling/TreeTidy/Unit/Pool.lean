/-!
Pools of workers. The jobs wait in one queue; a worker takes the first of them, and sends its result
with the number of the job. The results are put in the order of the jobs, so it does not matter in
which order the workers take their turns.
-/
namespace TreeTidy

structure Pool (α β : Type) where
  queue : List (Nat × α)
  /-- What each worker has in hand. -/
  hands : List (Option (Nat × α))
  /-- The results sent so far. -/
  sent : List (Nat × β)
  deriving Repr

namespace Pool

variable {α β : Type}

/-- The number of workers: one for a job at most, but at least one. -/
def workers (wanted jobs : Nat) : Nat := max 1 (min wanted (max jobs 1))

def start (wanted : Nat) (jobs : List α) : Pool α β :=
  ⟨jobs.zipIdx.map fun (a, i) => (i, a), List.replicate (workers wanted jobs.length) none, []⟩

/-- A turn of one worker: it sends the result of its job, or takes a job. -/
def turn (work : α → β) (p : Pool α β) (worker : Nat) : Pool α β :=
  match p.hands[worker]? with
  | some (some (i, a)) =>
    { p with hands := p.hands.set worker none, sent := p.sent ++ [(i, work a)] }
  | some none =>
    match p.queue with
    | [] => p
    | job :: queue => { p with queue := queue, hands := p.hands.set worker (some job) }
  | none => p

/-- The pool after turns of the given workers. -/
def afterTurns (work : α → β) (p : Pool α β) (turns : List Nat) : Pool α β :=
  turns.foldl (turn work) p

/-- Whether nothing is left to do. -/
def isIdle (p : Pool α β) : Bool := p.queue.isEmpty && p.hands.all Option.isNone

/-- The results sent, in the order of the jobs. -/
def results (p : Pool α β) (jobs : Nat) : List β := (List.range jobs).filterMap fun i => p.sent.lookup i

/-- Turns that leave nothing to do: every worker in turn, twice for each job. -/
def rounds (wanted jobs : Nat) : List Nat :=
  (List.replicate (2 * jobs) (List.range (workers wanted jobs))).flatten

/-- Does all jobs. -/
def run (wanted : Nat) (work : α → β) (jobs : List α) : List β :=
  ((start wanted jobs).afterTurns work (rounds wanted jobs.length)).results jobs.length

end Pool

end TreeTidy
