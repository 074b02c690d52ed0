import ClauseDiscovery.Enumeration.Successor

/-! Arrangements of a list of numbers in lexicographic order. The next arrangement leaves as
much of the front alone as it can: it raises the last number that has a larger one behind
it, by the least possible amount, and puts what follows into ascending order. -/
namespace ClauseDiscovery
namespace Permutation

/-- Exchange `x` with the first larger number of an ascending list. -/
def exchange (x : Nat) : List Nat → Option (Nat × List Nat)
  | [] => none
  | y :: ys =>
    if x < y then some (y, x :: ys)
    else (exchange x ys).map fun (z, zs) => (z, y :: zs)

def next? : List Nat → Option (List Nat)
  | [] => none
  | x :: xs =>
    match next? xs with
    | some ys => some (x :: ys)
    -- `xs` descends here, so its reverse ascends and stays ascending after the exchange
    | none => (exchange x xs.reverse).map fun (y, ys) => y :: ys

def bound (n : Nat) : Nat := n.pow n

/-- All permutations of the numbers below `n` in ascending order, the identity first. -/
def all (n : Nat) : List (List Nat) := successors next? (bound n) (List.range n)

def allButIdentity (n : Nat) (p : List Nat → Bool) : Bool :=
  match next? (List.range n) with
  | none => true
  | some π => allSuccessors next? p (bound n - 1) π

@[simp] theorem head?_all (n : Nat) : (all n).head? = some (List.range n) :=
  head?_successors _ _

theorem bound_pos (n : Nat) : 0 < bound n := by
  cases n with
  | zero => simp [bound]
  | succ n => exact Nat.pow_pos (Nat.succ_pos n)

theorem allButIdentity_eq (n : Nat) (p : List Nat → Bool) :
    allButIdentity n p = (all n).tail.all p := by
  obtain ⟨b, hb⟩ := Nat.exists_eq_succ_of_ne_zero (Nat.pos_iff_ne_zero.mp (bound_pos n))
  unfold allButIdentity all
  rw [hb]
  unfold successors
  split <;> simp_all [allSuccessors_eq_all]

end Permutation
end ClauseDiscovery
