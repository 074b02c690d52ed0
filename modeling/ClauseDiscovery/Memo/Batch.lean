import ClauseDiscovery.Memo.Counters
import ClauseDiscovery.Memo.Query
import ClauseDiscovery.Oracle.Basic
import ClauseDiscovery.World.Problem
import Std.Data.HashMap
import Std.Data.HashSet

/-! A cache of verdicts that asks in batches. Submitted formulas wait, and the first query for
an unknown verdict sends all of them to the oracle in one call. When that call gives no
verdicts, everything goes on waiting and the next query sends it again. -/
namespace ClauseDiscovery

structure BatchCache where
  problem : Problem
  oracle : Oracle
  pending : List Formula := []
  pendingSet : Std.HashSet Formula := ∅
  table : Std.HashMap Formula Bool := ∅
  counters : Counters := .zero
  exchanges : List Exchange := []

namespace BatchCache

def ofProblem (problem : Problem) (oracle : Oracle) : BatchCache := { problem, oracle }

/-- The verdict in the table; nothing is asked. -/
def cached? (c : BatchCache) (φ : Formula) : Option Bool := c.table[φ]?

def knows (c : BatchCache) (φ : Formula) : Bool :=
  c.table.contains φ || c.pendingSet.contains φ

def size (c : BatchCache) : Nat := c.table.size + c.pending.length

def isEmpty (c : BatchCache) : Bool := c.size == 0

def enqueue (c : BatchCache) (φ : Formula) : BatchCache :=
  { c with pending := c.pending ++ [φ], pendingSet := c.pendingSet.insert φ }

/-- Announce a formula; one that is known counts as a duplicate. -/
def submit (c : BatchCache) (φ : Formula) : BatchCache :=
  let c' := { c with counters := c.counters.submission }
  if c.knows φ then { c' with counters := c'.counters.duplicate } else c'.enqueue φ

def ask (c : BatchCache) : Reply × BatchCache :=
  let reply := (c.oracle.reply c.exchanges.length c.problem.vocabulary
    c.problem.interpretations c.pending).checked c.pending.length
  (reply, { c with
    counters := c.counters.call c.pending.length
    exchanges := c.exchanges ++ [⟨c.pending, reply⟩] })

/-- Move the batch with its verdicts into the table. -/
def memorize (c : BatchCache) (verdicts : List Bool) : BatchCache :=
  { c with
    pending := []
    pendingSet := ∅
    table := (c.pending.zip verdicts).foldl (fun t (φ, b) => t.insert φ b) c.table }

/-- Have all that waits decided. With nothing waiting, nothing is asked; a panic of the oracle
is not counted as a failure. -/
def flush (c : BatchCache) : Except Interruption Unit × BatchCache :=
  if c.pending.isEmpty then (.ok (), c)
  else
    match c.ask with
    | (.verdicts vs, c') => (.ok (), c'.memorize vs)
    | (.failed e, c') =>
      (.error (.failed (.oracle e)), { c' with counters := c'.counters.failure })
    | (.panicked p, c') => (.error (.panicked p), c')

/-- The verdict for a formula, which is submitted first unless it is known. -/
def query (c : BatchCache) (φ : Formula) : Except Interruption Bool × BatchCache :=
  match c.cached? φ with
  | some b => (.ok b, { c with counters := c.counters.hit })
  | none =>
    let c₁ := { c with counters := c.counters.miss }
    let c₂ := if c₁.pendingSet.contains φ then c₁ else c₁.submit φ
    match c₂.flush with
    | (.error i, c₃) => (.error i, c₃)
    | (.ok (), c₃) =>
      match c₃.cached? φ with
      | some b => (.ok b, c₃)
      | none => (.error (.failed (.notSubmitted φ)), c₃)

def resetCounters (c : BatchCache) : BatchCache := { c with counters := .zero }

@[simp] theorem pending_enqueue (c : BatchCache) (φ : Formula) :
    (c.enqueue φ).pending = c.pending ++ [φ] := rfl
@[simp] theorem pending_memorize (c : BatchCache) (vs : List Bool) :
    (c.memorize vs).pending = [] := rfl
@[simp] theorem exchanges_memorize (c : BatchCache) (vs : List Bool) :
    (c.memorize vs).exchanges = c.exchanges := rfl
@[simp] theorem pending_ask (c : BatchCache) : c.ask.2.pending = c.pending := rfl
@[simp] theorem table_ask (c : BatchCache) : c.ask.2.table = c.table := rfl

theorem exchanges_ask (c : BatchCache) :
    c.ask.2.exchanges = c.exchanges ++ [⟨c.pending, c.ask.1⟩] := rfl

theorem flush_of_pending_eq_nil {c : BatchCache} (h : c.pending = []) :
    c.flush = (.ok (), c) := by
  simp [flush,h]

end BatchCache
end ClauseDiscovery
