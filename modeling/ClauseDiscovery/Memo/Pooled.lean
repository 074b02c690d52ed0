import ClauseDiscovery.Memo.Shared

/-! A shared cache on its pool. The cache by itself lets a check begin whenever a worker is free.
Here the workers are those of a pool: the check is a job, under the same number, that has to be
pushed, found and taken, and the worker that runs the job takes the steps of the check. The pool
is open as long as the cache is there. -/
namespace ClauseDiscovery

def Phase.job? : Phase → Option Nat
  | .running id => some id
  | .own | .shared | .others _ | .idle | .carrying _ _ | .gone => none

def Check.isDone (k : Check) : Bool :=
  match k.stage with
  | .done => true
  | .queued | .started | .counted | .asked _ | .judged _ => false

structure PooledCache where
  cache : SharedCache
  pool : Pool Unit

namespace PooledCache

def ofProblem (problem : Problem) (oracle : Oracle) (requested : Nat) : PooledCache :=
  ⟨.ofProblem problem oracle requested, .ofRequested requested⟩

/-- The job of a check. It catches the panics of the oracle itself, and what it comes to goes to
the task of the check. -/
def errand : Job Unit := ⟨.ok (), false⟩

/-- A new submission, a new query, the next step of a caller, the two steps that follow the push
of a job, the next step of a worker. -/
inductive Event where
  | submit (φ : Formula)
  | query (φ : Formula)
  | advance (caller : Nat)
  | count
  | ring
  | work (worker extra : Nat)

def jobOf? (p : Pool Unit) (i : Nat) : Option Nat := p.workers[i]?.bind (·.phase.job?)

/-- A caller that schedules a check pushes its job. -/
def advance? (s : PooledCache) (i : Nat) : Option PooledCache :=
  (s.cache.step? (.advance i)).bind fun d =>
    if d.checks.length = s.cache.checks.length then some ⟨d, s.pool⟩
    else (s.pool.step? (.push errand)).map (⟨d, ·⟩)

/-- Worker `i` goes on. As long as it runs a job, it takes the steps of the check, and the last of
them ends the job; the first one it takes when it has found the job. -/
def work? (s : PooledCache) (i extra : Nat) : Option PooledCache :=
  match jobOf? s.pool i with
  | some id =>
    (s.cache.step? (.work id)).bind fun d =>
      if d.checks[id]?.any (·.isDone) then (s.pool.step? (.work i extra)).map (⟨d, ·⟩)
      else some ⟨d, s.pool⟩
  | none =>
    (s.pool.step? (.work i extra)).bind fun q =>
      match jobOf? q i with
      | some id => (s.cache.step? (.work id)).map (⟨·, q⟩)
      | none => some ⟨s.cache, q⟩

def step? (s : PooledCache) : Event → Option PooledCache
  | .submit φ => (s.cache.step? (.submit φ)).map (⟨·, s.pool⟩)
  | .query φ => (s.cache.step? (.query φ)).map (⟨·, s.pool⟩)
  | .advance i => s.advance? i
  | .count => (s.pool.step? .count).map (⟨s.cache, ·⟩)
  | .ring => (s.pool.step? .ring).map (⟨s.cache, ·⟩)
  | .work i extra => s.work? i extra

def perform (s : PooledCache) (events : List Event) : PooledCache :=
  events.foldl (fun s e => (s.step? e).getD s) s

end PooledCache
end ClauseDiscovery
