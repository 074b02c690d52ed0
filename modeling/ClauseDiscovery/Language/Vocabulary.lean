import ClauseDiscovery.Language.Predicate

/-! The types and predicates that the oracle knows, in the order of their registration.
Registration never refuses: names and whole entries may repeat, and a look-up by name gives
the first of them. -/
namespace ClauseDiscovery

structure Vocabulary where
  types : List Ty := []
  predicates : List Predicate := []
  deriving DecidableEq, Repr, Inhabited

namespace Vocabulary

def addType (v : Vocabulary) (τ : Ty) : Vocabulary := { v with types := v.types ++ [τ] }

def addPredicate (v : Vocabulary) (p : Predicate) : Vocabulary :=
  { v with predicates := v.predicates ++ [p] }

def typeNamed? (v : Vocabulary) (name : String) : Option Ty :=
  v.types.find? (·.name == name)

def predicateNamed? (v : Vocabulary) (name : String) : Option Predicate :=
  v.predicates.find? (·.name == name)

def contains (v : Vocabulary) (p : Predicate) : Bool := v.predicates.contains p

end Vocabulary
end ClauseDiscovery
