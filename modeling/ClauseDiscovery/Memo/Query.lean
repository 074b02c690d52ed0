import ClauseDiscovery.Oracle.Basic

/-! What a query for a verdict may come to instead of a verdict. -/
namespace ClauseDiscovery

inductive ValidityError where
  | notSubmitted (φ : Formula)
  | oracle (e : OracleError)
  deriving DecidableEq, Repr

namespace ValidityError

def message : ValidityError → String
  | notSubmitted φ => "validity of " ++ φ.text ++ " queried before it was submitted"
  | oracle e => e.message

def source? : ValidityError → Option OracleError
  | notSubmitted _ => none
  | oracle e => some e

end ValidityError

/-- A query ends without a verdict when it fails, or when the oracle's panic passes through. -/
inductive Interruption where
  | failed (e : ValidityError)
  | panicked (p : PanicPayload)
  deriving DecidableEq, Repr

end ClauseDiscovery
