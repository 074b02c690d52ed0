import ClauseDiscovery.Atom

/-! Atoms placed in a clause. A literal is an atom on one side of the arrow; a candidate is a
literal together with its sequence number in the universe that it was drawn from. -/
namespace ClauseDiscovery

/-- The two sides of a clause; the body comes first. -/
inductive Side where
  | body
  | head
  deriving DecidableEq, Hashable, Ord, Repr, Inhabited

namespace Side

def flip : Side → Side
  | body => head
  | head => body

def text : Side → String
  | body => "body"
  | head => "head"

@[simp] theorem flip_flip (s : Side) : s.flip.flip = s := by cases s <;> rfl

end Side

structure Literal where
  side : Side
  atom : Atom
  deriving DecidableEq, Hashable

namespace Literal

def isBody (l : Literal) : Bool := l.side == .body

/-- By predicate, then by side, then by the variables from left to right. -/
protected def compare (l m : Literal) : Ordering :=
  (l.atom.predicate.compare m.atom.predicate).then
    ((Ord.compare l.side m.side).then (Ord.compare l.atom.vars m.atom.vars))

def rename (l : Literal) (f : UInt32 → UInt32) : Literal := ⟨l.side, l.atom.rename f⟩

def onSide (l : Literal) (s : Side) : Literal := ⟨s, l.atom⟩

@[simp] theorem rename_side (l : Literal) (f : UInt32 → UInt32) :
    (l.rename f).side = l.side := rfl
@[simp] theorem rename_atom (l : Literal) (f : UInt32 → UInt32) :
    (l.rename f).atom = l.atom.rename f := rfl

end Literal

/-- A literal offered to a clause, or accepted by one, with its sequence number. -/
structure Candidate where
  literal : Literal
  index : Nat
  deriving DecidableEq

namespace Candidate

abbrev atom (c : Candidate) : Atom := c.literal.atom
abbrev side (c : Candidate) : Side := c.literal.side
abbrev isBody (c : Candidate) : Bool := c.literal.isBody

def onSide (c : Candidate) (s : Side) : Candidate := ⟨c.literal.onSide s, c.index⟩

def text (c : Candidate) : String :=
  c.atom.text ++ "@" ++ c.side.text ++ "#" ++ c.index.repr

end Candidate
end ClauseDiscovery
