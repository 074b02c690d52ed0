/-! Types of a learning problem. A type is a root or a child of another type, so the types
in use form a forest; two types are equal when their names, marks and whole lines of
ancestors are. -/
namespace ClauseDiscovery

/-- A type: a root, which the oracle may already know, or a child of another type. -/
inductive Ty where
  | root (name : String) (builtin : Bool)
  | child (name : String) (parent : Ty)
  deriving DecidableEq, Hashable, Repr, Inhabited

namespace Ty

def name : Ty → String
  | root n _ => n
  | child n _ => n

def parent? : Ty → Option Ty
  | root _ _ => none
  | child _ p => some p

/-- Only a root can be known to the oracle beforehand. -/
def isBuiltin : Ty → Bool
  | root _ b => b
  | child _ _ => false

def lineage : Ty → List Ty
  | root n b => [root n b]
  | child n p => child n p :: p.lineage

/-- Whether `a` is the second type or one of its ancestors. -/
def isSupertypeOf (a : Ty) : Ty → Bool
  | root n b => a == root n b
  | child n p => a == child n p || a.isSupertypeOf p

def Related (a b : Ty) : Prop := a.isSupertypeOf b ∨ b.isSupertypeOf a

instance (a b : Ty) : Decidable (a.Related b) := by unfold Related; infer_instance

@[simp] theorem self_mem_lineage (a : Ty) : a ∈ a.lineage := by
  cases a <;> simp [lineage]

theorem isSupertypeOf_iff_mem_lineage {a b : Ty} : a.isSupertypeOf b ↔ a ∈ b.lineage := by
  induction b with
  | root n b => simp [isSupertypeOf,lineage]
  | child n p ih => simp [isSupertypeOf,lineage,ih]

@[simp] theorem isSupertypeOf_self (a : Ty) : a.isSupertypeOf a :=
  isSupertypeOf_iff_mem_lineage.mpr a.self_mem_lineage

end Ty
end ClauseDiscovery
