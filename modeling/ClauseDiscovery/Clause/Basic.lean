import ClauseDiscovery.Literal
import ClauseDiscovery.Typing

/-! Clauses under construction: a list of literals, all of the body before all of the head,
that grows by one legal literal at a time. Sequence numbers ascend on each side; variables
are numbered by first occurrence and introduced in the body; a new literal shares a variable
with the clause, fits the types, and in the head is not one of the body's. -/
namespace ClauseDiscovery

/-- A clause with the number of variables it has introduced and their types. -/
structure Clause where
  rank : UInt32
  entries : List Candidate
  typing : Typing
  deriving DecidableEq

namespace Clause

def empty : Clause := ⟨0, [], .empty⟩

def literals (c : Clause) : List Literal := c.entries.map (·.literal)

def length (c : Clause) : Nat := c.entries.length

def isEmpty (c : Clause) : Bool := c.entries.isEmpty

def body (c : Clause) : List Candidate := c.entries.filter (·.isBody)

def head (c : Clause) : List Candidate := c.entries.filter (! ·.isBody)

def lastIndex? (c : Clause) : Option Nat := c.entries.getLast?.map (·.index)

/-- The side being filled: the body until the first literal of the head. -/
def side (c : Clause) : Side := (c.entries.getLast?.map (·.side)).getD .body

def inBody (c : Clause) : Bool := c.side == .body

def contains (c : Clause) (l : Literal) : Bool := c.entries.any (·.literal == l)

def sameLiterals (c d : Clause) : Bool := c.literals == d.literals

def followsLast (c : Clause) (x : Candidate) : Bool :=
  x.side != c.side || c.lastIndex?.all (· < x.index)

def keepsSides (c : Clause) (x : Candidate) : Bool := c.inBody || !x.isBody

/-- While the head is being filled, no literal of the body again. -/
def avoidsBody (c : Clause) (x : Candidate) : Bool :=
  c.inBody || !c.contains (x.literal.onSide .body)

/-- A variable of the clause occurs in the literal, if the clause has variables. -/
def sharesVariable (c : Clause) (x : Candidate) : Bool :=
  c.rank == 0 || x.atom.vars.any (· < c.rank)

/-- Read from left to right, each variable is an old one or, in the body, the next new one. -/
def inOrder (s : Side) (next : UInt32) : List UInt32 → Bool
  | [] => true
  | v :: vs =>
    if s = .body ∧ v = next then inOrder s (next + 1) vs
    else decide (v < next) && inOrder s next vs

def admits (c : Clause) (x : Candidate) : Bool :=
  c.followsLast x && c.keepsSides x && c.typing.admits x.atom.predicate x.atom.vars &&
    c.avoidsBody x && c.sharesVariable x && inOrder x.side c.rank x.atom.vars

/-- The number of variables once `a` is part of a clause of rank `r`. -/
def rankWith (r : UInt32) (a : Atom) : UInt32 :=
  match a.max? with
  | none => r
  | some m => max r (m + 1)

def extend? (c : Clause) (x : Candidate) : Option Clause :=
  if c.admits x then
    -- an admitted literal fits the typing, so the second case does not arise
    match c.typing.useAll x.atom.predicate x.atom.vars with
    | .ok e => some ⟨rankWith c.rank x.atom, c.entries ++ [x], e⟩
    | .error _ => none
  else none

def ofCandidates? (xs : List Candidate) : Option Clause := xs.foldlM extend? empty

def text (c : Clause) : String :=
  let side (xs : List Candidate) := "[" ++ ", ".intercalate (xs.map (·.atom.text)) ++ "]"
  side c.body ++ " => " ++ side c.head

theorem entries_extend? {c d : Clause} {x : Candidate} (h : c.extend? x = some d) :
    d.entries = c.entries ++ [x] := by
  unfold extend? at h
  split at h
  · split at h
    · cases h
      rfl
    · cases h
  · cases h

theorem entries_foldlM {c d : Clause} {xs : List Candidate}
    (h : xs.foldlM extend? c = some d) : d.entries = c.entries ++ xs := by
  induction xs generalizing c with
  | nil =>
    cases h
    simp
  | cons x xs ih =>
    rw [List.foldlM_cons] at h
    obtain ⟨b, hb, hd⟩ := Option.bind_eq_some_iff.mp h
    rw [ih hd, entries_extend? hb]
    simp

theorem entries_ofCandidates? {d : Clause} {xs : List Candidate}
    (h : ofCandidates? xs = some d) : d.entries = xs := by
  simpa [empty] using entries_foldlM h

theorem admits_of_extend? {c d : Clause} {x : Candidate} (h : c.extend? x = some d) :
    c.admits x := by
  unfold extend? at h
  split at h
  · assumption
  · cases h

theorem extend?_isSome_iff {c : Clause} {x : Candidate} :
    (c.extend? x).isSome ↔ c.admits x := by
  constructor
  · intro h
    obtain ⟨d, hd⟩ := Option.isSome_iff_exists.mp h
    exact admits_of_extend? hd
  · intro h
    have ht : c.typing.admits x.atom.predicate x.atom.vars := by
      simp only [admits,Bool.and_eq_true] at h
      exact h.1.1.1.2
    obtain ⟨e, he⟩ := Typing.admits_iff.mp ht
    simp [extend?,h,he]

end Clause
end ClauseDiscovery
