/-! Listing by successors: a value, the value after it, and so on until there is none after.
The bound on the number of steps is chosen by the caller and not reached where the order has
an end within it. -/
namespace ClauseDiscovery

/-- The value `x` and what follows it, after at most `n` steps. -/
def successors {α : Type _} (next? : α → Option α) : Nat → α → List α
  | 0, x => [x]
  | n+1, x =>
    match next? x with
    | none => [x]
    | some y => x :: successors next? n y

/-- Whether `p` holds of `x` and of all that follows it; stops at the first that fails. -/
def allSuccessors {α : Type _} (next? : α → Option α) (p : α → Bool) : Nat → α → Bool
  | 0, x => p x
  | n+1, x =>
    p x && match next? x with
      | none => true
      | some y => allSuccessors next? p n y

variable {α : Type _} {next? : α → Option α}

theorem successors_ne_nil (n : Nat) (x : α) : successors next? n x ≠ [] := by
  cases n with
  | zero => simp [successors]
  | succ n => unfold successors; split <;> simp

@[simp] theorem head?_successors (n : Nat) (x : α) :
    (successors next? n x).head? = some x := by
  cases n with
  | zero => rfl
  | succ n => unfold successors; split <;> rfl

theorem allSuccessors_eq_all (p : α → Bool) (n : Nat) (x : α) :
    allSuccessors next? p n x = (successors next? n x).all p := by
  induction n generalizing x with
  | zero => simp [allSuccessors,successors]
  | succ n ih =>
    unfold allSuccessors successors
    split <;> simp [ih]

end ClauseDiscovery
