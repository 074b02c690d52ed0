import ClauseDiscovery.Clause.Canonical

/-! The search through clauses, level by level. Each level holds the representatives that
extend a clause of the level before by one literal. -/
namespace ClauseDiscovery
namespace Clause

/-- The representatives with one literal more, in the order of the universe's candidates. -/
def refinements (u : Universe) (c : Clause) : List Clause :=
  u.candidates.filterMap (c.extendCanonical? u)

def nextLevel (u : Universe) (cs : List Clause) : List Clause := cs.flatMap (refinements u)

/-- The level that lies `depth` refinements below the given one. -/
def frontier (u : Universe) : Nat → List Clause → List Clause
  | 0, cs => cs
  | n+1, cs => frontier u n (nextLevel u cs)

def levels (u : Universe) : Nat → List Clause → List (List Clause)
  | 0, _ => []
  | n+1, cs =>
    let next := nextLevel u cs
    next :: levels u n next

@[simp] theorem length_levels (u : Universe) (n : Nat) (cs : List Clause) :
    (levels u n cs).length = n := by
  induction n generalizing cs with
  | zero => rfl
  | succ n ih => simp [levels,ih]

theorem getLastD_levels (u : Universe) (n : Nat) (cs : List Clause) :
    (levels u n cs).getLastD cs = frontier u n cs := by
  induction n generalizing cs with
  | zero => rfl
  | succ n ih => rw [levels,frontier,List.getLastD_cons,ih]

theorem length_of_mem_refinements {u : Universe} {c d : Clause} (h : d ∈ c.refinements u) :
    d.length = c.length + 1 := by
  obtain ⟨x, _, hx⟩ := List.mem_filterMap.mp h
  simp [length,entries_extend? (extend?_of_extendCanonical? hx)]

end Clause
end ClauseDiscovery
