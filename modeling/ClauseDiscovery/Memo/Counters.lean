import ClauseDiscovery.Decimal.Fixed

/-! Counters of the traffic through a cache of verdicts. They are 64-bit words and wrap. -/
namespace ClauseDiscovery

structure Counters where
  submissions : UInt64 := 0
  duplicates : UInt64 := 0
  hits : UInt64 := 0
  misses : UInt64 := 0
  calls : UInt64 := 0
  evaluated : UInt64 := 0
  failures : UInt64 := 0
  deriving DecidableEq, Repr

namespace Counters

def zero : Counters := {}

def submission (c : Counters) : Counters := { c with submissions := c.submissions + 1 }

def duplicate (c : Counters) : Counters := { c with duplicates := c.duplicates + 1 }

def hit (c : Counters) : Counters := { c with hits := c.hits + 1 }

def miss (c : Counters) : Counters := { c with misses := c.misses + 1 }

def call (c : Counters) (formulas : Nat) : Counters :=
  { c with calls := c.calls + 1, evaluated := c.evaluated + formulas.toUInt64 }

def failure (c : Counters) : Counters := { c with failures := c.failures + 1 }

/-- The fraction of queries answered from the table; all of them, if there were none. -/
def hitRate (c : Counters) : Float :=
  if c.hits + c.misses = 0 then 1.0 else c.hits.toFloat / (c.hits + c.misses).toFloat

def perCall (c : Counters) : Float :=
  if c.calls = 0 then 0.0 else c.evaluated.toFloat / c.calls.toFloat

def places : Nat := 1

def text (c : Counters) : String :=
  let n (x : UInt64) := x.toNat.repr
  "=== Validity Cache Metrics ===\n" ++
  "Submissions:        " ++ n c.submissions ++ " (" ++ n c.duplicates ++ " duplicates)\n" ++
  "Lookups:            " ++ n c.hits ++ " hits, " ++ n c.misses ++ " misses (" ++
    Decimal.fixedText places (c.hitRate * 100.0) ++ "% hit rate)\n" ++
  "Oracle calls:       " ++ n c.calls ++ " (" ++ n c.evaluated ++ " formulas, " ++
    Decimal.fixedText places c.perCall ++ " per call, " ++ n c.failures ++ " failed)\n"

end Counters
end ClauseDiscovery
