import ClauseDiscovery.Language.Predicate

/-! Atoms: a predicate applied to as many variables as it has parameters. Variables are 32-bit
numbers. -/
namespace ClauseDiscovery

structure ArityError where
  predicate : String
  arity : Nat
  given : Nat
  deriving DecidableEq, Repr

def ArityError.message (e : ArityError) : String :=
  e.predicate ++ " has arity " ++ e.arity.repr ++ " but was given " ++ e.given.repr ++
    " variable indices"

def variableText (v : UInt32) : String := "x" ++ v.toNat.repr

/-- A predicate applied to variables, one for each of its parameters. -/
structure Atom where
  predicate : Predicate
  vars : List UInt32
  length_vars : vars.length = predicate.arity
  deriving DecidableEq

namespace Atom

/-- The hash looks at the predicate's name and the variables only. -/
instance : Hashable Atom := ⟨fun a => mixHash (hash a.predicate.name) (hash a.vars)⟩

def ofVars (p : Predicate) (vars : List UInt32) : Except ArityError Atom :=
  if h : vars.length = p.arity then .ok ⟨p, vars, h⟩
  else .error ⟨p.name, p.arity, vars.length⟩

/-- The largest variable; a nullary atom has none. -/
def max? (a : Atom) : Option UInt32 := a.vars.max?

def rename (a : Atom) (f : UInt32 → UInt32) : Atom :=
  ⟨a.predicate, a.vars.map f, by simp [a.length_vars]⟩

protected def compare (a b : Atom) : Ordering :=
  (a.predicate.compare b.predicate).then (Ord.compare a.vars b.vars)

def text (a : Atom) : String :=
  a.predicate.name ++ "(" ++ ",".intercalate (a.vars.map variableText) ++ ")"

@[simp] theorem rename_predicate (a : Atom) (f : UInt32 → UInt32) :
    (a.rename f).predicate = a.predicate := rfl
@[simp] theorem rename_vars (a : Atom) (f : UInt32 → UInt32) :
    (a.rename f).vars = a.vars.map f := rfl

theorem ext_of_eq {a b : Atom} (hp : a.predicate = b.predicate) (hv : a.vars = b.vars) :
    a = b := by
  cases a; cases b; cases hp; cases hv; rfl

@[simp] theorem rename_id (a : Atom) : a.rename id = a := ext_of_eq rfl (by simp)

@[simp] theorem rename_rename (a : Atom) (f g : UInt32 → UInt32) :
    (a.rename f).rename g = a.rename (g ∘ f) := ext_of_eq rfl (by simp)

theorem ofVars_eq_ok_iff {p : Predicate} {vars : List UInt32} {a : Atom} :
    ofVars p vars = .ok a ↔ a.predicate = p ∧ a.vars = vars := by
  unfold ofVars
  split
  · constructor
    · intro h
      cases h
      exact ⟨rfl,rfl⟩
    · rintro ⟨rfl,rfl⟩
      rfl
  · rename_i h
    constructor
    · intro h'
      cases h'
    · rintro ⟨rfl,rfl⟩
      exact absurd a.length_vars h

end Atom
end ClauseDiscovery
