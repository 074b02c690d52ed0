import ClauseDiscovery.Language.Ty

/-! Predicate symbols with typed parameters, and the order in which a universe lists them.
The order sees only names: predicates that differ in a type's mark or ancestors may compare
equal without being equal. -/
namespace ClauseDiscovery

/-- A predicate symbol with the declared type of each parameter. -/
structure Predicate where
  name : String
  params : List Ty
  deriving DecidableEq, Hashable, Repr, Inhabited

namespace Predicate

def arity (p : Predicate) : Nat := p.params.length

/-- By name, then by arity, then by the names of the parameter types from left to right. -/
protected def compare (p q : Predicate) : Ordering :=
  (Ord.compare p.name q.name).then
    ((Ord.compare p.arity q.arity).then
      (Ord.compare (p.params.map Ty.name) (q.params.map Ty.name)))

def text (p : Predicate) : String :=
  p.name ++ "(" ++ ", ".intercalate (p.params.map Ty.name) ++ ")"

end Predicate
end ClauseDiscovery
