import ClauseDiscovery.World.Interpretation
import ClauseDiscovery.Formula
import ClauseDiscovery.Enumeration.Permutation

/-! Learning problems: a vocabulary, the worlds observed in it, and the predicates that the
search may put into clauses. -/
namespace ClauseDiscovery

/-- A predicate of the search; of a symmetric one the order of arguments does not matter. -/
structure SearchPredicate where
  predicate : Predicate
  symmetric : Bool := false
  deriving DecidableEq, Repr

structure World (v : Vocabulary) where
  facts : Example
  interpretation : Interpretation
  interpret_facts : facts.interpret v = .ok interpretation

def World.ofExample (v : Vocabulary) (facts : Example) : Except FactError (World v) :=
  match h : facts.interpret v with
  | .ok i => .ok ⟨facts, i, h⟩
  | .error e => .error e

structure Problem where
  vocabulary : Vocabulary
  worlds : List (World vocabulary)
  search : List SearchPredicate

namespace Problem

def ofExamples (v : Vocabulary) (examples : List Example) (search : List SearchPredicate) :
    Except FactError Problem := do
  return ⟨v, ← examples.mapM (World.ofExample v), search⟩

def examples (b : Problem) : List Example := b.worlds.map (·.facts)

def interpretations (b : Problem) : List Interpretation := b.worlds.map (·.interpretation)

/-- The atom of `p` over as many fresh variables, each at its declared type. -/
def genericArgs (p : Predicate) : List TypedVar :=
  p.params.zipIdx.map fun (τ, i) => ⟨i.toUInt32, τ⟩

/-- For a predicate: whatever holds of some arguments holds of the same in any other order. -/
def symmetryOf (p : Predicate) : List Formula :=
  (Permutation.all p.arity).tail.map fun π =>
    -- every number of a permutation is below the arity, so no argument is left out
    .horn ⟨p, π.filterMap fun i => (genericArgs p)[i]?⟩ ⟨p, genericArgs p⟩

def symmetryFormulas (b : Problem) : List Formula :=
  (b.search.filter (·.symmetric)).flatMap fun d => symmetryOf d.predicate

def split (b : Problem) : List Problem := b.worlds.map fun w => { b with worlds := [w] }

@[simp] theorem length_split (b : Problem) : b.split.length = b.examples.length := by
  simp [split,examples]

end Problem
end ClauseDiscovery
