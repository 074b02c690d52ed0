import ClauseDiscovery.Enumeration.Permutation

/-! The same listing by positions: one row of numbers is changed in place from arrangement to
arrangement, in a loop. To read or write at a position that the row does not have is a fault, and
so is counting down past zero. -/
namespace ClauseDiscovery
namespace Permutation

inductive Fault where
  | outside (i : Nat)
  | belowZero
  deriving DecidableEq, Repr

def read (xs : List Nat) (i : Nat) : Except Fault Nat :=
  match xs[i]? with
  | some x => .ok x
  | none => .error (.outside i)

def countDown : Nat → Except Fault Nat
  | 0 => .error .belowZero
  | i+1 => .ok i

def swap (xs : List Nat) (i j : Nat) : Except Fault (List Nat) := do
  let x ← read xs i
  let y ← read xs j
  return (xs.set i y).set j x

def reverseFrom (xs : List Nat) (i : Nat) : Except Fault (List Nat) :=
  if i ≤ xs.length then .ok (xs.take i ++ (xs.drop i).reverse) else .error (.outside i)

/-- The last position before `i` whose number is less than its right neighbour. -/
def pivot? (xs : List Nat) : Nat → Except Fault (Option Nat)
  | 0 => .ok none
  | i+1 => do
    let x ← read xs i
    let y ← read xs (i+1)
    if x < y then return some i else pivot? xs i

/-- The last position up to `j` whose number is above the one at `p`. -/
def lastAbove (xs : List Nat) (p : Nat) : Nat → Except Fault Nat
  | 0 => do
    let y ← read xs 0
    let x ← read xs p
    if y ≤ x then .error .belowZero else return 0
  | j+1 => do
    let y ← read xs (j+1)
    let x ← read xs p
    if y ≤ x then lastAbove xs p j else return j+1

/-- The arrangement after the given one of `n` numbers, unless it is the last. -/
def advance (n : Nat) (xs : List Nat) : Except Fault (Option (List Nat)) := do
  match ← pivot? xs (n-1) with
  | none => return none
  | some p =>
    let j ← lastAbove xs p (← countDown n)
    let ys ← swap xs p j
    return some (← reverseFrom ys (p+1))

/-- What is listed already, and the arrangements that follow `xs`, if the loop ends within the
given number of rounds. -/
def listFrom (n : Nat) : Nat → List Nat → List (List Nat) →
    Option (Except Fault (List (List Nat)))
  | 0, _, _ => none
  | rounds+1, xs, listed =>
    match advance n xs with
    | .error e => some (.error e)
    | .ok none => some (.ok listed)
    | .ok (some ys) => listFrom n rounds ys (listed ++ [ys])

def listInPlace (n rounds : Nat) : Option (Except Fault (List (List Nat))) :=
  listFrom n rounds (List.range n) [List.range n]

end Permutation
end ClauseDiscovery
