import ClauseDiscovery.Clause.Basic
import ClauseDiscovery.Formula

/-! A clause as a formula: each variable carries the type that the clause gives it. -/
namespace ClauseDiscovery
namespace Clause

/-- The atom over typed variables. A variable without a type takes the declared one. -/
def typedAtom (c : Clause) (a : Atom) : TypedAtom :=
  ⟨a.predicate, (a.vars.zip a.predicate.params).map fun (v, τ) =>
    ⟨v, (c.typing.get? v).getD τ⟩⟩

def toFormula (c : Clause) : Formula :=
  ⟨c.body.map fun x => c.typedAtom x.atom, c.head.map fun x => c.typedAtom x.atom⟩

@[simp] theorem toFormula_empty : empty.toFormula = ⟨[], []⟩ := rfl

theorem map_index_typedAtom (c : Clause) (a : Atom) :
    (c.typedAtom a).args.map (·.index) = a.vars := by
  simp only [typedAtom,List.map_map]
  exact List.map_fst_zip (Nat.le_of_eq a.length_vars)

end Clause
end ClauseDiscovery
