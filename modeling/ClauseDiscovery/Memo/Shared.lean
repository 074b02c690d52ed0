import ClauseDiscovery.Memo.Counters
import ClauseDiscovery.Memo.Query
import ClauseDiscovery.World.Problem
import ClauseDiscovery.Work.Pool
import Std.Data.HashMap

/-! A cache of verdicts that many threads share. Submitting a formula schedules a check of it
alone unless one exists; querying it waits until its check has ended. A check is one call of
the oracle and is never repeated. Every step of every caller and of every check is an event,
and the events may come in any order in which each is possible. -/
namespace ClauseDiscovery

abbrev Verdict := Except OracleError Bool

def Reply.outcome : Reply → Outcome Verdict
  | verdicts (b :: _) => .ok (.ok b)
  | verdicts [] => .ok (.error (.verdictCount 1 0))
  | failed e => .ok (.error e)
  | panicked p => .error (.panicked p.message)

inductive Stage where
  | queued
  | started
  | counted
  | asked (r : Reply)
  | judged (r : Outcome Verdict)
  | done

/-- The check of one formula and the task that holds what it comes to. -/
structure Check where
  formula : Formula
  stage : Stage := .queued
  task : Task Verdict := .pending

def Check.ofFormula (φ : Formula) : Check := { formula := φ }

def Check.isRunning (k : Check) : Bool :=
  match k.stage with
  | .queued | .done => false
  | _ => true

/-- How far a call has come. A submission that finds no entry keeps the formula to itself from
scheduling the check until the entry is in the table. -/
inductive Caller where
  | submitting (φ : Formula)
  | entering (φ : Formula)
  | inserting (φ : Formula) (check : Nat)
  | submitted (φ : Formula)
  | querying (φ : Formula)
  | holding (φ : Formula) (check : Nat)
  | waiting (φ : Formula) (check : Nat)
  | answered (φ : Formula) (answer : Except ValidityError Bool)

/-- The answer that a query makes of the outcome of a check. -/
def answerOf : Outcome Verdict → Except ValidityError Bool
  | .ok (.ok b) => .ok b
  | .ok (.error e) => .error (.oracle e)
  | .error (.panicked reason) => .error (.oracle (.panicked reason))
  | .error .abandoned =>
    .error (.oracle (.invocation "validity check was dropped before it ran"))

/-- Checks and callers are known by their numbers; `kept` are the formulas that a caller keeps
to itself, and `submitted` counts the checks put into the pool in a 64-bit word. -/
structure SharedCache where
  problem : Problem
  oracle : Oracle
  requested : Nat
  table : Std.HashMap Formula Nat := ∅
  kept : List Formula := []
  checks : List Check := []
  callers : List Caller := []
  counters : Counters := .zero
  submitted : UInt64 := 0
  exchanges : List Exchange := []

namespace SharedCache

def ofProblem (problem : Problem) (oracle : Oracle) (requested : Nat) : SharedCache :=
  { problem, oracle, requested }

def threads (c : SharedCache) : Nat := Pool.threads c.requested

def contains (c : SharedCache) (φ : Formula) : Bool := c.table.contains φ

def size (c : SharedCache) : Nat := c.table.size

def isEmpty (c : SharedCache) : Bool := c.size == 0

/-- A new submission, a new query, the next step of a caller, the next step of a check. -/
inductive Event where
  | submit (φ : Formula)
  | query (φ : Formula)
  | advance (caller : Nat)
  | work (check : Nat)

def setCaller (c : SharedCache) (i : Nat) (k : Caller) : SharedCache :=
  { c with callers := c.callers.set i k }

/-- Put a check of a formula into the pool and keep the formula. -/
def schedule (c : SharedCache) (φ : Formula) : SharedCache :=
  { c with
    checks := c.checks ++ [Check.ofFormula φ]
    kept := φ :: c.kept
    submitted := c.submitted + 1 }

/-- The next step of caller `i`. A caller has to wait for a formula that another one keeps, and
for a check that has not ended. -/
def advance? (c : SharedCache) (i : Nat) : Caller → Option SharedCache
  | .submitting φ =>
    some ({ c with counters := c.counters.submission }.setCaller i (.entering φ))
  | .entering φ =>
    -- looking for an entry and scheduling the check are one step: no other caller with `φ`
    -- comes between
    if φ ∈ c.kept then none
    else if c.table.contains φ then
      some ({ c with counters := c.counters.duplicate }.setCaller i (.submitted φ))
    else some ((c.schedule φ).setCaller i (.inserting φ c.checks.length))
  | .inserting φ k =>
    some ({ c with
      table := c.table.insert φ k
      kept := c.kept.erase φ }.setCaller i (.submitted φ))
  | .submitted _ => none
  | .querying φ =>
    if φ ∈ c.kept then none
    else
      match c.table[φ]? with
      | none => some (c.setCaller i (.answered φ (.error (.notSubmitted φ))))
      | some k => some (c.setCaller i (.holding φ k))
  | .holding φ k =>
    c.checks[k]?.map fun check =>
      let counters := if check.task.isFinished then c.counters.hit else c.counters.miss
      { c with counters }.setCaller i (.waiting φ k)
  | .waiting φ k =>
    (c.checks[k]?.bind (·.task.wait?)).map fun r =>
      c.setCaller i (.answered φ (answerOf r))
  | .answered _ _ => none

def setStage (c : SharedCache) (i : Nat) (stage : Stage) : SharedCache :=
  { c with checks := c.checks.modify i fun k => { k with stage } }

def busy (c : SharedCache) : Nat := c.checks.countP (·.isRunning)

def ask (c : SharedCache) (φ : Formula) : Reply × SharedCache :=
  let reply := (c.oracle.reply c.exchanges.length c.problem.vocabulary
    c.problem.interpretations [φ]).checked 1
  (reply, { c with exchanges := c.exchanges ++ [⟨[φ], reply⟩] })

/-- The next step of check `i`. It begins when a worker is free; an error of the oracle counts
as a failure, a panic does not. -/
def work? (c : SharedCache) (i : Nat) (k : Check) : Option SharedCache :=
  match k.stage with
  | .queued => if c.busy < c.threads then some (c.setStage i .started) else none
  | .started => some ({ c with counters := c.counters.call 1 }.setStage i .counted)
  | .counted =>
    match c.ask k.formula with
    | (reply, c') => some (c'.setStage i (.asked reply))
  | .asked reply =>
    match reply.outcome with
    | .ok (.error e) =>
      some ({ c with counters := c.counters.failure }.setStage i (.judged (.ok (.error e))))
    | r => some (c.setStage i (.judged r))
  | .judged r =>
    some { c with checks := c.checks.set i { k with stage := .done, task := k.task.fulfil r } }
  | .done => none

def step? (c : SharedCache) : Event → Option SharedCache
  | .submit φ => some { c with callers := c.callers ++ [.submitting φ] }
  | .query φ => some { c with callers := c.callers ++ [.querying φ] }
  | .advance i => c.callers[i]?.bind (c.advance? i)
  | .work i => c.checks[i]?.bind (c.work? i)

/-- The events in turn; one that is not possible changes nothing. -/
def perform (c : SharedCache) (events : List Event) : SharedCache :=
  events.foldl (fun c e => (c.step? e).getD c) c

/-- A submission from its beginning to its end, with no step of anything else in between. -/
def submit (c : SharedCache) (φ : Formula) : SharedCache :=
  c.perform (.submit φ :: List.replicate 3 (.advance c.callers.length))

def runCheck (c : SharedCache) (i : Nat) : SharedCache :=
  c.perform (List.replicate 5 (.work i))

/-- Let all checks come to their end, in the order in which they were scheduled. -/
def settle (c : SharedCache) : SharedCache :=
  (List.range c.checks.length).foldl runCheck c

def answer? (c : SharedCache) (caller : Nat) : Option (Except ValidityError Bool) :=
  match c.callers[caller]? with
  | some (.answered _ r) => some r
  | _ => none

/-- Whether the check of a formula has ended; there is none for one that is not submitted. -/
def isFinished? (c : SharedCache) (φ : Formula) : Option Bool :=
  c.table[φ]?.bind fun k => c.checks[k]?.map (·.task.isFinished)

/-- A query from its beginning to its end. Where it has to wait, all checks end meanwhile. -/
def query (c : SharedCache) (φ : Formula) :
    Option (Except ValidityError Bool) × SharedCache :=
  let i := c.callers.length
  let c₁ := c.perform (.query φ :: List.replicate 3 (.advance i))
  match c₁.answer? i with
  | some r => (some r, c₁)
  | none =>
    let c₂ := c₁.settle.perform [.advance i]
    (c₂.answer? i, c₂)

def resetCounters (c : SharedCache) : SharedCache := { c with counters := .zero }

@[simp,grind =] theorem callers_schedule (c : SharedCache) (φ : Formula) :
    (c.schedule φ).callers = c.callers := rfl
@[simp] theorem checks_schedule (c : SharedCache) (φ : Formula) :
    (c.schedule φ).checks = c.checks ++ [Check.ofFormula φ] := rfl
@[simp] theorem counters_schedule (c : SharedCache) (φ : Formula) :
    (c.schedule φ).counters = c.counters := rfl

end SharedCache
end ClauseDiscovery
