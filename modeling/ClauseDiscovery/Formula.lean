import ClauseDiscovery.Atom

/-! Typed formulas: all variables are universally quantified, the body is a conjunction and
the head a disjunction of atoms. Equality looks at the types of the variables too. -/
namespace ClauseDiscovery

structure TypedVar where
  index : UInt32
  ty : Ty
  deriving DecidableEq, Hashable, Repr

def TypedVar.text (v : TypedVar) : String := variableText v.index

structure TypedAtom where
  predicate : Predicate
  args : List TypedVar
  deriving DecidableEq, Hashable, Repr

def TypedAtom.text (a : TypedAtom) : String :=
  a.predicate.name ++ "(" ++ ",".intercalate (a.args.map TypedVar.text) ++ ")"

/-- The implication from all atoms of the body to some atom of the head. -/
structure Formula where
  body : List TypedAtom
  head : List TypedAtom
  deriving DecidableEq, Hashable, Repr

namespace Formula

def horn (head body : TypedAtom) : Formula := ⟨[body], [head]⟩

def atoms (φ : Formula) : List TypedAtom := φ.body ++ φ.head

/-- Add a variable at the end unless its number is there already. -/
def noteVar (seen : List TypedVar) (v : TypedVar) : List TypedVar :=
  if seen.any (·.index == v.index) then seen else seen ++ [v]

/-- The variables by first occurrence, each once and as it occurs first. -/
def vars (φ : Formula) : List TypedVar :=
  (φ.atoms.flatMap (·.args)).foldl noteVar []

def joined (sign ifNone : String) (atoms : List TypedAtom) : String :=
  if atoms.isEmpty then ifNone else sign.intercalate (atoms.map TypedAtom.text)

def text (φ : Formula) : String :=
  joined " & " "true" φ.body ++ " => " ++ joined " | " "false" φ.head

@[simp] theorem atoms_horn (a b : TypedAtom) : (horn a b).atoms = [b, a] := rfl

end Formula
end ClauseDiscovery
