import ClauseDiscovery.Work.Task

/-! A pool of workers. Jobs go into a shared queue and each rings a bell once; a worker takes
from its own queue, then a batch from the shared one, then from the other workers, and when
all look empty it waits for the bell. A pool that is closed lets its workers finish what is
queued. Every step of every thread is an event, and the events may come in any order in
which each is possible. -/
namespace ClauseDiscovery

/-- A piece of work, how it ends, and whether a handle waits for its result. -/
structure Job (α : Type) where
  ending : Except PanicPayload α
  watched : Bool

namespace Job

/-- A panic reaches the worker only where no handle takes it. -/
def panicsWorker {α : Type} (j : Job α) : Bool :=
  !j.watched && match j.ending with
    | .ok _ => false
    | .error _ => true

def task? {α : Type} (j : Job α) : Option (Task α) :=
  if j.watched then some .pending else none

end Job

/-- What a worker is about to do, or is doing. Jobs are known by their numbers. -/
inductive Phase where
  | own
  | shared
  | others (i : Nat)
  | idle
  | carrying (job : Nat) (batch : List Nat)
  | running (job : Nat)
  | gone
  deriving DecidableEq, Repr

structure Worker where
  queue : List Nat := []
  phase : Phase := .own
  run : Nat := 0
  panicked : Nat := 0
  deriving DecidableEq, Repr

/-- A job is put into the pool in three steps: it is pushed, counted, and the bell is rung.
The fields `pushed` and `counted` tell how many callers are after the first and the second. -/
structure Pool (α : Type) where
  requested : Nat
  jobs : List (Job α) := []
  tasks : List (Option (Task α)) := []
  shared : List Nat := []
  pushed : Nat := 0
  counted : Nat := 0
  submitted : Nat := 0
  tokens : Nat := 0
  closed : Bool := false
  workers : List Worker
  ran : List Nat := []

namespace Pool

variable {α : Type}

def defaultWorkers : Nat := 8

def threads (requested : Nat) : Nat := max 1 requested

def ofRequested (requested : Nat) : Pool α :=
  { requested, workers := List.replicate (threads requested) {} }

/-- A step of a caller, of the owner, or of worker `i`; `extra` is the size of the batch if
the step takes one. -/
inductive Event (α : Type) where
  | push (job : Job α)
  | count
  | ring
  | close
  | work (i extra : Nat)

def setPhase (p : Pool α) (i : Nat) (phase : Phase) : Pool α :=
  { p with workers := p.workers.modify i fun w => { w with phase } }

def setQueue (p : Pool α) (i : Nat) (queue : List Nat) : Pool α :=
  { p with workers := p.workers.modify i fun w => { w with queue } }

/-- Worker `i` has run job `id`, and a handle that waits for it has its result. -/
def finish (p : Pool α) (i id : Nat) : Pool α :=
  match p.jobs[id]? with
  | none => p.setPhase i .own
  | some job =>
    { p with
      tasks := p.tasks.modify id (Option.map (·.fulfil (.ofWork job.ending)))
      ran := p.ran ++ [id]
      workers := p.workers.modify i fun w =>
        { w with
          phase := .own
          run := w.run + 1
          panicked := if job.panicsWorker then w.panicked + 1 else w.panicked } }

/-- The step that worker `i` is about to make. Only a worker that waits for the bell may have
none, and one that is gone. -/
def work? (p : Pool α) (i extra : Nat) (w : Worker) : Option (Pool α) :=
  match w.phase with
  | .own =>
    match w.queue with
    | id :: rest => some ((p.setQueue i rest).setPhase i (.running id))
    | [] => some (p.setPhase i .shared)
  | .shared =>
    match p.shared with
    | id :: rest =>
      some ({ p with shared := rest.drop extra }.setPhase i (.carrying id (rest.take extra)))
    | [] => some (p.setPhase i (.others 0))
  -- a batch on its way is in no queue, and other workers do not see it
  | .others j =>
    match p.workers[j]? with
    | none => some (p.setPhase i .idle)
    | some v =>
      match v.queue with
      | id :: rest =>
        -- its own queue is not among those that a worker steals from
        if j = i then some (p.setPhase i (.others (j + 1)))
        else some ((p.setQueue j rest).setPhase i (.running id))
      | [] => some (p.setPhase i (.others (j + 1)))
  | .idle =>
    match p.tokens with
    | n+1 => some ({ p with tokens := n }.setPhase i .own)
    | 0 => if p.closed then some (p.setPhase i .gone) else none
  | .carrying id batch => some ((p.setQueue i (w.queue ++ batch)).setPhase i (.running id))
  | .running id => some (p.finish i id)
  | .gone => none

/-- One event, if it is possible. The owner closes a pool that nobody is putting a job into,
and nothing is pushed afterwards. -/
def step? (p : Pool α) : Event α → Option (Pool α)
  | .push job =>
    if p.closed then none
    else some { p with
      jobs := p.jobs ++ [job]
      tasks := p.tasks ++ [job.task?]
      shared := p.shared ++ [p.jobs.length]
      pushed := p.pushed + 1 }
  | .count =>
    match p.pushed with
    | 0 => none
    | n+1 => some { p with
        pushed := n
        counted := p.counted + 1
        submitted := p.submitted + 1 }
  | .ring =>
    match p.counted with
    | 0 => none
    | n+1 => some { p with
        counted := n
        tokens := p.tokens + 1 }
  | .close =>
    if p.closed ∨ p.pushed ≠ 0 ∨ p.counted ≠ 0 then none else some { p with closed := true }
  | .work i extra => p.workers[i]?.bind (p.work? i extra)

/-- The events in turn; one that is not possible changes nothing. -/
def perform (p : Pool α) (events : List (Event α)) : Pool α :=
  events.foldl (fun p e => (p.step? e).getD p) p

def execute (p : Pool α) (job : Job α) : Pool α := p.perform [.push job, .count, .ring]

def workFirst? (p : Pool α) : Option (Pool α) :=
  (List.range p.workers.length).findSome? fun i => p.step? (.work i 0)

def workSteps : Nat → Pool α → Pool α
  | 0, p => p
  | n+1, p =>
    match p.workFirst? with
    | none => p
    | some q => workSteps n q

/-- Enough steps for all that is queued: for each job, each token and each worker there is
one round through the phases. -/
def stepsLeft (p : Pool α) : Nat :=
  (p.jobs.length + p.tokens + 2 * p.workers.length) * (p.workers.length + 6)

/-- Let the workers go on until all of them wait. -/
def settle (p : Pool α) : Pool α := workSteps p.stepsLeft p

def values (p : Pool α) : List α :=
  p.ran.filterMap fun id =>
    p.jobs[id]?.bind fun j =>
      match j.ending with
      | .ok x => some x
      | .error _ => none

def runTotal (p : Pool α) : Nat := p.workers.foldl (fun n w => n + w.run) 0

def panickedTotal (p : Pool α) : Nat := p.workers.foldl (fun n w => n + w.panicked) 0

def text (p : Pool α) : String :=
  "WorkerPool \x7b num_workers: " ++ p.workers.length.repr ++ ", queued: " ++
    (if p.shared.isEmpty then "false" else "true") ++ " \x7d"

@[simp] theorem length_workers_ofRequested (n : Nat) :
    (ofRequested n : Pool α).workers.length = max 1 n := by
  simp [ofRequested,threads]

end Pool
end ClauseDiscovery
