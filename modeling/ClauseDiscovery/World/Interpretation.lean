import ClauseDiscovery.Language.Vocabulary
import ClauseDiscovery.World.Slots

/-! Interpretations: what the facts of one example say about every type and predicate of a
vocabulary. Extensions are kept in slots; a key that several slots carry fills the first. -/
namespace ClauseDiscovery

/-- What stands under a key, in the first of its slots. -/
def slotOf? {κ α : Type} [DecidableEq κ] (k : κ) (slots : List (κ × List α)) : Option (List α) :=
  (slots.find? (·.1 == k)).map (·.2)

/-- A predicate applied to constants; the number of constants is not checked here. -/
structure Fact where
  predicate : Predicate
  args : List String
  deriving DecidableEq, Hashable, Repr

inductive FactError where
  | unknownPredicate (name : String)
  | arityMismatch (predicate : String) (expected given : Nat)
  deriving DecidableEq, Repr

def FactError.message : FactError → String
  | unknownPredicate name => "example uses predicate " ++ name ++ " outside the vocabulary"
  | arityMismatch p expected given =>
    "example atom " ++ p ++ " has " ++ given.repr ++ " arguments, expected " ++ expected.repr

structure Interpretation where
  domains : List (Ty × List String)
  relations : List (Predicate × List (List String))
  deriving DecidableEq, Repr

namespace Interpretation

def domain? (i : Interpretation) (τ : Ty) : Option (List String) := slotOf? τ i.domains

def relation? (i : Interpretation) (p : Predicate) : Option (List (List String)) :=
  slotOf? p i.relations

def tupleCount (i : Interpretation) : Nat :=
  i.relations.foldl (fun n r => n + r.2.length) 0

end Interpretation

abbrev Example := List Fact

structure Draft where
  domains : Slots Ty String
  relations : Slots Predicate (List String)

namespace Draft

def blank (v : Vocabulary) : Draft := ⟨.ofKeys v.types, .ofKeys v.predicates⟩

def noteConstants (domains : Slots Ty String) (f : Fact) : Slots Ty String :=
  (f.args.zip f.predicate.params).foldl (fun ds (x, τ) => ds.noteAt τ x) domains

/-- The draft with one more fact. Its predicate has to be known, then its number of constants
has to be right. -/
def record (d : Draft) (f : Fact) : Except FactError Draft :=
  match d.relations.place? f.predicate with
  | none => .error (.unknownPredicate f.predicate.name)
  | some i =>
    if f.args.length ≠ f.predicate.arity then
      .error (.arityMismatch f.predicate.name f.predicate.arity f.args.length)
    else .ok ⟨noteConstants d.domains f, d.relations.note i f.args⟩

def interpretation (d : Draft) : Interpretation := ⟨d.domains.entries, d.relations.entries⟩

end Draft

def Example.interpret (v : Vocabulary) (facts : Example) : Except FactError Interpretation :=
  (facts.foldlM Draft.record (.blank v)).map Draft.interpretation

end ClauseDiscovery
