import ClauseDiscovery.Atom

/-! Typings of variables. A typing gives each variable that has been used the most specific
type it was used at; a use at an unrelated type is refused. Bindings stand in ascending
order of their variables, so equal typings are equal values. -/
namespace ClauseDiscovery

structure TypeConflict where
  var : UInt32
  bound : Ty
  needed : Ty
  deriving DecidableEq, Repr

def TypeConflict.message (e : TypeConflict) : String :=
  "variable " ++ variableText e.var ++ " is bound to " ++ e.bound.name ++
    " and cannot be used as " ++ e.needed.name

def insertBinding (v : UInt32) (τ : Ty) : List (UInt32 × Ty) → List (UInt32 × Ty)
  | [] => [(v, τ)]
  | b :: bs =>
    if v < b.1 then (v, τ) :: b :: bs
    else if v = b.1 then (v, τ) :: bs
    else b :: insertBinding v τ bs

theorem eq_or_mem_of_mem_insertBinding {v : UInt32} {τ : Ty} {b : UInt32 × Ty}
    {bs : List (UInt32 × Ty)} (h : b ∈ insertBinding v τ bs) : b = (v, τ) ∨ b ∈ bs := by
  induction bs with
  | nil => simpa [insertBinding] using h
  | cons c cs ih =>
    unfold insertBinding at h
    split at h
    · simpa using h
    · split at h
      · rcases List.mem_cons.mp h with h | h
        · exact Or.inl h
        · exact Or.inr (List.mem_cons_of_mem _ h)
      · rcases List.mem_cons.mp h with h | h
        · exact Or.inr (List.mem_cons.mpr (Or.inl h))
        · exact (ih h).imp_right (List.mem_cons_of_mem _)

theorem pairwise_insertBinding (v : UInt32) (τ : Ty) {bs : List (UInt32 × Ty)}
    (h : bs.Pairwise (·.1 < ·.1)) : (insertBinding v τ bs).Pairwise (·.1 < ·.1) := by
  induction bs with
  | nil => simp [insertBinding]
  | cons c cs ih =>
    have hc := List.pairwise_cons.mp h
    unfold insertBinding
    split
    · rename_i hv
      refine List.pairwise_cons.mpr ⟨?_,h⟩
      intro b hb
      rcases List.mem_cons.mp hb with rfl | hb
      · exact hv
      · exact UInt32.lt_trans hv (hc.1 b hb)
    · split
      · rename_i hv
        subst hv
        exact List.pairwise_cons.mpr hc
      · rename_i hlt hne
        refine List.pairwise_cons.mpr ⟨?_,ih hc.2⟩
        intro b hb
        rcases eq_or_mem_of_mem_insertBinding hb with rfl | hb
        · exact UInt32.lt_of_le_of_ne (UInt32.not_lt.mp hlt) (Ne.symm hne)
        · exact hc.1 b hb

structure Typing where
  bindings : List (UInt32 × Ty) := []
  ascending : bindings.Pairwise (·.1 < ·.1) := by simp
  deriving DecidableEq

namespace Typing

def empty : Typing := {}

def get? (e : Typing) (v : UInt32) : Option Ty :=
  (e.bindings.find? (·.1 == v)).map (·.2)

def size (e : Typing) : Nat := e.bindings.length

def isEmpty (e : Typing) : Bool := e.bindings.isEmpty

def insert (e : Typing) (v : UInt32) (τ : Ty) : Typing :=
  ⟨insertBinding v τ e.bindings, pairwise_insertBinding v τ e.ascending⟩

/-- Use a variable at a type: a new variable takes it, an old one keeps the more specific of
the two, and types of different lines conflict. -/
def useAt (e : Typing) (v : UInt32) (needed : Ty) : Except TypeConflict Typing :=
  match e.get? v with
  | none => .ok (e.insert v needed)
  | some bound =>
    -- equal types end here too, and inserting the old type again changes nothing
    if bound.isSupertypeOf needed then .ok (e.insert v needed)
    else if needed.isSupertypeOf bound then .ok e
    else .error ⟨v, bound, needed⟩

/-- Use each variable at the type of its position; a variable that repeats sees its earlier
use. The longer of the two lists is cut to the shorter. -/
def useAll (e : Typing) (p : Predicate) (vars : List UInt32) : Except TypeConflict Typing :=
  (vars.zip p.params).foldlM (fun e (v, τ) => e.useAt v τ) e

def admits (e : Typing) (p : Predicate) (vars : List UInt32) : Bool :=
  (e.useAll p vars).isOk

@[simp] theorem get?_empty (v : UInt32) : empty.get? v = none := rfl

theorem get?_insert (e : Typing) (v w : UInt32) (τ : Ty) :
    (e.insert v τ).get? w = if w = v then some τ else e.get? w := by
  obtain ⟨bs, hbs⟩ := e
  unfold get? insert
  simp only
  clear hbs
  induction bs with
  | nil =>
    by_cases h : w = v
    · simp [insertBinding,h]
    · simp [insertBinding,h,Ne.symm h]
  | cons b bs ih =>
    unfold insertBinding
    by_cases h : w = v
    · subst h
      simp only [↓reduceIte] at ih ⊢
      split
      · simp
      · split
        · simp
        · rename_i hne
          simpa [List.find?_cons,Ne.symm hne] using ih
    · simp only [h,↓reduceIte] at ih ⊢
      split
      · simp [List.find?_cons,Ne.symm h]
      · split
        · rename_i hv
          simp [Ne.symm h,← hv]
        · simp only [List.find?_cons]
          split
          · rfl
          · exact ih

theorem admits_iff {e : Typing} {p : Predicate} {vars : List UInt32} :
    e.admits p vars ↔ ∃ e', e.useAll p vars = .ok e' := by
  unfold admits
  cases e.useAll p vars <;> simp [Except.isOk,Except.toBool]

end Typing
end ClauseDiscovery
