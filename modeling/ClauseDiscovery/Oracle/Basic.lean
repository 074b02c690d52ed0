import ClauseDiscovery.World.Interpretation
import ClauseDiscovery.Formula
import ClauseDiscovery.Text.Quoted
import ClauseDiscovery.Work.Task

/-! The oracle, which decides whether formulas hold in every world of a problem. It may answer,
fail or panic, and differently at every call; what it is trusted for is only the length of
its answer, and that is checked. -/
namespace ClauseDiscovery

inductive OracleError where
  | invocation (reason : String)
  | malformedOutput (line : String)
  | verdictCount (expected given : Nat)
  | panicked (reason : String)
  deriving DecidableEq, Repr

def OracleError.message : OracleError → String
  | invocation reason => "oracle invocation failed: " ++ reason
  | malformedOutput line => "malformed oracle output: " ++ Text.quote line
  | verdictCount expected given =>
    "oracle returned " ++ given.repr ++ " verdicts for " ++ expected.repr ++ " formulas"
  | panicked reason => "oracle panicked: " ++ reason

inductive Reply where
  | verdicts (vs : List Bool)
  | failed (e : OracleError)
  | panicked (p : PanicPayload)
  deriving DecidableEq, Repr

/-- The reply to a question about `count` formulas, where another number of verdicts is a
failure. -/
def Reply.checked (count : Nat) : Reply → Reply
  | verdicts vs =>
    if vs.length = count then verdicts vs else failed (.verdictCount count vs.length)
  | r => r

/-- A call is given its number, counted from zero, and what it is asked about. -/
structure Oracle where
  reply : Nat → Vocabulary → List Interpretation → List Formula → Reply

structure Exchange where
  formulas : List Formula
  reply : Reply
  deriving DecidableEq, Repr

@[simp] theorem Reply.checked_failed (n : Nat) (e : OracleError) :
    (failed e).checked n = failed e := rfl
@[simp] theorem Reply.checked_panicked (n : Nat) (p : PanicPayload) :
    (panicked p).checked n = panicked p := rfl

theorem Reply.length_of_checked {n : Nat} {r : Reply} {vs : List Bool}
    (h : r.checked n = verdicts vs) : vs.length = n := by
  cases r with
  | verdicts us =>
    simp only [checked] at h
    split at h
    · cases h
      assumption
    · cases h
  | failed e => cases h
  | panicked p => cases h

end ClauseDiscovery
