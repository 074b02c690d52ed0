import ClauseDiscovery.Literal
import ClauseDiscovery.Enumeration.Odometer
import Std.Data.HashMap

/-! The universe of a search: every atom of the search predicates over the variables below a
bound, in a fixed order. Predicates come in their order and the atoms of one predicate in
the order of their variables, so that on one side sequence numbers agree with the order of
literals. -/
namespace ClauseDiscovery

/-- The positions of the atoms of a list. An atom that occurs twice has the later one. -/
def positionTable (atoms : List Atom) : Std.HashMap Atom Nat :=
  atoms.zipIdx.foldl (fun table (a, i) => table.insert a i) ∅

/-- The atoms that a search draws from, with the way back from an atom to its position. -/
structure Universe where
  atoms : List Atom
  bound : UInt32
  positions : Std.HashMap Atom Nat := positionTable atoms
  positions_eq : positions = positionTable atoms := by rfl

namespace Universe

/-- The given predicates in order, neighbours that are equal reduced to one. -/
def arrange (predicates : List Predicate) : List Predicate :=
  (predicates.mergeSort fun p q => (p.compare q).isLE).eraseReps

def atomsOf (bound : UInt32) (p : Predicate) : List Atom :=
  (Odometer.readings p.arity bound).attach.map fun ⟨vars, h⟩ =>
    ⟨p, vars, Odometer.length_of_mem_readings h⟩

def ofPredicates (predicates : List Predicate) (bound : UInt32) : Universe where
  atoms := (arrange predicates).flatMap (atomsOf bound)
  bound := bound

def size (u : Universe) : Nat := u.atoms.length

def get? (u : Universe) (i : Nat) : Option Atom := u.atoms[i]?

def indexOf? (u : Universe) (a : Atom) : Option Nat := u.positions[a]?

/-- The atom at position `i`, placed on a side. -/
def candidateAt? (u : Universe) (i : Nat) (s : Side) : Option Candidate :=
  (u.get? i).map fun a => ⟨⟨s, a⟩, i⟩

/-- The literal with its atom's position, if the universe holds the atom. -/
def place? (u : Universe) (l : Literal) : Option Candidate :=
  (u.indexOf? l.atom).map fun i => ⟨l, i⟩

def onSide (u : Universe) (s : Side) : List Candidate :=
  u.atoms.zipIdx.map fun (a, i) => ⟨⟨s, a⟩, i⟩

/-- What can be offered to a clause: the universe in the body, then the universe in the head. -/
def candidates (u : Universe) : List Candidate := u.onSide .body ++ u.onSide .head

@[simp] theorem length_onSide (u : Universe) (s : Side) : (u.onSide s).length = u.size := by
  simp [onSide,size]

end Universe
end ClauseDiscovery
