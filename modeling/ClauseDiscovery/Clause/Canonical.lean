import ClauseDiscovery.Clause.Basic
import ClauseDiscovery.Universe
import ClauseDiscovery.Enumeration.Permutation

/-! Representatives of clauses that are equal up to the order of literals and the names of
variables. The smallest clause of such a class stands for it: clauses are compared at the
first literal where they differ. -/
namespace ClauseDiscovery

/-- Whether the first list is smaller at the first position where the two differ. -/
def precedes : List Literal → List Literal → Bool
  | l :: ls, m :: ms =>
    match l.compare m with
    | .lt => true
    | .gt => false
    | .eq => precedes ls ms
  | _, _ => false

namespace Candidate

/-- The order of literals; sequence numbers do not matter. -/
def literalLE (x y : Candidate) : Bool := (x.literal.compare y.literal).isLE

def placeLE (x y : Candidate) : Bool :=
  ((Ord.compare x.side y.side).then (Ord.compare x.index y.index)).isLE

end Candidate

def variablesOf (xs : List Candidate) : List UInt32 := (xs.flatMap (·.atom.vars)).eraseDups

/-- Number variables by their place in a list; a variable outside it stays. -/
def numbering (order : List UInt32) (v : UInt32) : UInt32 :=
  match order.idxOf? v with
  | some i => i.toUInt32
  | none => v

/-- Send a variable to where the permutation sends it; a variable outside it stays. -/
def permuting (π : List Nat) (v : UInt32) : UInt32 :=
  match π[v.toNat]? with
  | some i => i.toUInt32
  | none => v

namespace Universe

/-- Rename the variables of all literals and find the new ones in the universe, if it holds
them all. -/
def rename? (u : Universe) (f : UInt32 → UInt32) (xs : List Candidate) :
    Option (List Candidate) :=
  xs.mapM fun x => u.place? (x.literal.rename f)

end Universe

namespace Clause

/-- The legal clause, if there is one, that has the literals in their own order once they
are renamed by first occurrence. -/
def reordered? (u : Universe) (xs : List Candidate) : Option Clause := do
  let ys ← u.rename? (numbering (variablesOf xs)) xs
  ofCandidates? (ys.mergeSort Candidate.literalLE)

/-- The legal clause, if there is one, that a permutation of the variables turns `c` into. -/
def permuted? (u : Universe) (c : Clause) (π : List Nat) : Option Clause := do
  let ys ← u.rename? (permuting π) c.entries
  -- no other order of the literals is legal
  ofCandidates? (ys.mergeSort Candidate.placeLE)

def withstands (c : Clause) (alternative : Option Clause) : Bool :=
  alternative.all fun d => !precedes d.literals c.literals

/-- No permutation of the variables turns the clause into a smaller legal one. -/
def isLeastRenaming (u : Universe) (c : Clause) : Bool :=
  Permutation.allButIdentity c.rank.toNat fun π => c.withstands (permuted? u c π)

/-- Putting `x` anywhere before the end of `c` does not lead to a smaller legal clause than
`d`, which has it at the end. -/
def isLeastInsertion (u : Universe) (c d : Clause) (x : Candidate) : Bool :=
  (List.range c.length).all fun i => d.withstands (reordered? u (c.entries.insertIdx i x))

/-- The clause with the literal at its end, if that is legal and stands for its class. The
search through the permutations is factorial in the number of variables. -/
def extendCanonical? (u : Universe) (c : Clause) (x : Candidate) : Option Clause :=
  (c.extend? x).filter fun d => isLeastInsertion u c d x && d.isLeastRenaming u

theorem extend?_of_extendCanonical? {u : Universe} {c d : Clause} {x : Candidate}
    (h : c.extendCanonical? u x = some d) : c.extend? x = some d :=
  (Option.filter_eq_some_iff.mp h).1

@[simp] theorem withstands_none (c : Clause) : c.withstands none = true := rfl

end Clause

theorem precedes_self_of_compare {ls : List Literal} (h : ∀ l ∈ ls, l.compare l = .eq) :
    precedes ls ls = false := by
  induction ls with
  | nil => rfl
  | cons l ls ih =>
    unfold precedes
    rw [h l (by simp)]
    exact ih fun m hm => h m (by simp [hm])

end ClauseDiscovery
