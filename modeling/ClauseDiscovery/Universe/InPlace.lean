import ClauseDiscovery.Universe
import ClauseDiscovery.Word

/-! How a universe is filled: for each predicate one row of digits is turned in place from reading
to reading, in a loop. A digit is raised first and compared with the base afterwards, and to raise
the largest word is a failure. -/
namespace ClauseDiscovery
namespace Odometer

/-- Turn the digits, the rightmost first: a digit that comes to the base starts again from zero and
the one on its left is raised. The flag tells whether some digit stayed below the base. -/
def turn (base : UInt32) : List UInt32 → Except Overflow (Bool × List UInt32)
  | [] => return (false, [])
  | d :: ds => do
    match ← turn base ds with
    | (true, es) => return (true, d :: es)
    | (false, es) =>
      let e ← countUp d
      return if e < base then (true, e :: es) else (false, 0 :: es)

def listFrom (base : UInt32) : Nat → List UInt32 → List (List UInt32) →
    Except Overflow (Option (List (List UInt32)))
  | 0, _, _ => return none
  | rounds+1, ds, listed => do
    match ← turn base ds with
    | (true, es) => listFrom base rounds es (listed ++ [ds])
    | (false, _) => return some (listed ++ [ds])

/-- All readings of the given length, if the loop ends within the given number of rounds. With a
base of zero the loop is not entered, unless there is no digit. -/
def listInPlace (length : Nat) (base : UInt32) (rounds : Nat) :
    Except Overflow (Option (List (List UInt32))) :=
  if length ≠ 0 ∧ base = 0 then return some []
  else listFrom base rounds (List.replicate length 0) []

end Odometer

namespace Universe

/-- The atoms of the predicates in turn, each as its predicate and its variables, if for each
predicate the loop ends within the given number of rounds. -/
def listInPlace (bound : UInt32) (rounds : Nat) :
    List Predicate → Except Overflow (Option (List (Predicate × List UInt32)))
  | [] => return some []
  | p :: ps => do
    match ← Odometer.listInPlace p.arity bound rounds with
    | none => return none
    | some readings =>
      match ← listInPlace bound rounds ps with
      | none => return none
      | some rest => return some (readings.map (p, ·) ++ rest)

end Universe
end ClauseDiscovery
