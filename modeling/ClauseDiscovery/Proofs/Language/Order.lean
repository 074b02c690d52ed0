import ClauseDiscovery.Clause.Canonical
import Mathlib.Data.List.Basic
import Mathlib.Order.Defs.Unbundled

/-! The orders on predicates, atoms and literals, and the comparison of lists of literals at
their first difference. All are lexicographic products of total orders; only the order of
predicates may call different predicates equal. -/
namespace ClauseDiscovery

theorem transCmp_comap {α β : Type*} (cmp : β → β → Ordering) [Std.TransCmp cmp] (f : α → β) :
    Std.TransCmp fun a b => cmp (f a) (f b) where
  eq_swap := Std.OrientedCmp.eq_swap
  isLE_trans := Std.TransCmp.isLE_trans

section Sorting

variable {α : Type*} {cmp : α → α → Ordering} [Std.TransCmp cmp]

theorem isLE_total (a b : α) : (cmp a b).isLE || (cmp b a).isLE := by
  have hswap : cmp b a = (cmp a b).swap := Std.OrientedCmp.eq_swap
  rw [hswap]
  cases cmp a b <;> rfl

variable (cmp) in
theorem pairwise_mergeSort_isLE (as : List α) :
    (as.mergeSort fun b c => (cmp b c).isLE).Pairwise fun b c => (cmp b c).isLE :=
  List.pairwise_mergeSort (fun _ _ _ => Std.TransCmp.isLE_trans) isLE_total as

end Sorting

instance : Std.LawfulEqOrd Side where
  compare_self {s} := by cases s <;> rfl
  eq_of_compare {s t} h := by
    cases s <;> cases t <;> first | rfl | exact absurd h (by decide)

instance : Std.TransOrd Side where
  eq_swap {s t} := by cases s <;> cases t <;> rfl
  isLE_trans {s t u} := by cases s <;> cases t <;> cases u <;> decide

namespace Predicate

theorem compare_eq_compareLex : Predicate.compare =
    compareLex (compareOn name) (compareLex (compareOn arity) (compareOn (·.params.map Ty.name))) :=
  rfl

instance : Std.TransCmp Predicate.compare := by
  rw [compare_eq_compareLex]
  infer_instance

@[simp] theorem compare_self (p : Predicate) : p.compare p = .eq := Std.ReflCmp.compare_self

/-- The order tells the predicates of a list apart. -/
def ToldApart (ps : List Predicate) : Prop := ∀ p ∈ ps, ∀ q ∈ ps, p.compare q = .eq → p = q

instance (ps : List Predicate) : Decidable (ToldApart ps) := by
  unfold ToldApart
  infer_instance

theorem arity_eq_of_compare {p q : Predicate} (h : p.compare q = .eq) : p.arity = q.arity := by
  simp only [Predicate.compare,Ordering.then_eq_eq] at h
  exact Std.LawfulEqCmp.eq_of_compare h.2.1

end Predicate

namespace Atom

instance : Std.TransCmp Atom.compare := by
  have := transCmp_comap Predicate.compare Atom.predicate
  have he : Atom.compare =
      compareLex (fun a b => a.predicate.compare b.predicate) (compareOn vars) := rfl
  rw [he]
  infer_instance

@[simp] theorem compare_self (a : Atom) : a.compare a = .eq := Std.ReflCmp.compare_self

theorem ne_of_compare_lt {a b : Atom} (h : a.compare b = .lt) : a ≠ b := by
  rintro rfl
  simp at h

theorem compare_eq_lt_iff {a b : Atom} : a.compare b = .lt ↔
    a.predicate.compare b.predicate = .lt ∨
      a.predicate.compare b.predicate = .eq ∧ compare a.vars b.vars = .lt := by
  simp [Atom.compare,Ordering.then_eq_lt]

end Atom

namespace Literal

instance : Std.TransCmp Literal.compare := by
  have := transCmp_comap Predicate.compare fun l : Literal => l.atom.predicate
  have he : Literal.compare =
      compareLex (fun l m => l.atom.predicate.compare m.atom.predicate)
        (compareLex (compareOn side) (compareOn (·.atom.vars))) := rfl
  rw [he]
  infer_instance

theorem compare_eq_eq_iff {l m : Literal} : l.compare m = .eq ↔
    l.atom.predicate.compare m.atom.predicate = .eq ∧ l.side = m.side ∧
      l.atom.vars = m.atom.vars := by
  simp [Literal.compare,Ordering.then_eq_eq]

@[simp] theorem compare_self (l : Literal) : l.compare l = .eq := Std.ReflCmp.compare_self

theorem predicate_isLE {l m : Literal} (h : (l.compare m).isLE) :
    (l.atom.predicate.compare m.atom.predicate).isLE := by
  rw [Literal.compare,Ordering.isLE_then_iff_and] at h
  exact h.1

theorem compare_of_side {l m : Literal} (h : l.side = m.side) :
    l.compare m = l.atom.compare m.atom := by
  simp [Literal.compare,Atom.compare,h]

theorem ext_of_eq {l m : Literal} (hs : l.side = m.side) (ha : l.atom = m.atom) : l = m := by
  cases l; cases m; cases hs; cases ha; rfl

end Literal

section Precedes

variable {l m : Literal} {ls ms ns : List Literal}

@[simp] theorem precedes_nil_left : precedes [] ms = false := by cases ms <;> rfl

@[simp] theorem precedes_nil_right : precedes ls [] = false := by cases ls <;> rfl

theorem precedes_cons_iff : precedes (l :: ls) (m :: ms) ↔
    l.compare m = .lt ∨ l.compare m = .eq ∧ precedes ls ms := by
  rw [precedes]
  cases l.compare m <;> simp

@[simp] theorem precedes_irrefl (ls : List Literal) : precedes ls ls = false :=
  precedes_self_of_compare fun _ _ => Std.ReflCmp.compare_self

theorem precedes_trans (h : precedes ls ms) (h' : precedes ms ns) : precedes ls ns := by
  induction ls generalizing ms ns with
  | nil => simp at h
  | cons l ls ih =>
    cases ms with
    | nil => simp at h
    | cons m ms =>
      cases ns with
      | nil => simp at h'
      | cons n ns =>
        rw [precedes_cons_iff] at h h' ⊢
        rcases h with h | ⟨he,h⟩ <;> rcases h' with h' | ⟨he',h'⟩
        · exact Or.inl (Std.TransCmp.lt_trans h h')
        · exact Or.inl (Std.TransCmp.lt_of_lt_of_eq h he')
        · exact Or.inl (Std.TransCmp.lt_of_eq_of_lt he h')
        · exact Or.inr ⟨Std.TransCmp.eq_trans he he',ih h h'⟩

/-- Of two lists of one length that are not equal, one is smaller at the first difference. -/
theorem precedes_or_precedes (hlen : ls.length = ms.length)
    (hc : ∀ l ∈ ls, ∀ m ∈ ms, l.compare m = .eq → l = m) (hne : ls ≠ ms) :
    precedes ls ms ∨ precedes ms ls := by
  induction ls generalizing ms with
  | nil => exact absurd (List.length_eq_zero_iff.mp hlen.symm).symm hne
  | cons l ls ih =>
    cases ms with
    | nil => simp at hlen
    | cons m ms =>
      rw [precedes_cons_iff,precedes_cons_iff]
      cases hlm : l.compare m with
      | lt => exact Or.inl (Or.inl rfl)
      | gt => exact Or.inr (Or.inl (Std.OrientedCmp.lt_of_gt hlm))
      | eq =>
        obtain rfl := hc l (by simp) m (by simp) hlm
        have htail : ls ≠ ms := fun he => hne (by rw [he])
        have := ih (by simpa using hlen) (fun a ha b hb => hc a (by simp [ha]) b (by simp [hb]))
          htail
        simpa using this

@[simp] theorem precedes_append_left :
    precedes (ms ++ ls) (ms ++ ns) = precedes ls ns := by
  induction ms with
  | nil => rfl
  | cons m ms ih => simpa [precedes] using ih

theorem precedes_append_right (h : precedes ls ms) (as bs : List Literal) :
    precedes (ls ++ as) (ms ++ bs) := by
  induction ls generalizing ms with
  | nil => simp at h
  | cons l ls ih =>
    cases ms with
    | nil => simp at h
    | cons m ms =>
      rw [List.cons_append,List.cons_append,precedes_cons_iff]
      exact (precedes_cons_iff.mp h).imp_right (And.imp_right ih)

theorem precedes_insert (h : precedes (ls ++ ms) ns) (hl : ∀ k ∈ ms, l.compare k = .lt) :
    precedes (ls ++ l :: ms) (ns ++ [m]) := by
  induction ls generalizing ns with
  | nil =>
    cases ms with
    | nil => simp at h
    | cons k ms =>
      cases ns with
      | nil => simp at h
      | cons n ns =>
        have hlk := hl k (by simp)
        refine precedes_cons_iff.mpr (Or.inl ?_)
        rcases precedes_cons_iff.mp h with hkn | ⟨hkn,_⟩
        · exact Std.TransCmp.lt_trans hlk hkn
        · exact Std.TransCmp.lt_of_lt_of_eq hlk hkn
  | cons k ls ih =>
    cases ns with
    | nil => simp at h
    | cons n ns =>
      rw [List.cons_append,precedes_cons_iff] at h
      rw [List.cons_append,List.cons_append,precedes_cons_iff]
      exact h.imp_right (And.imp_right ih)

end Precedes
end ClauseDiscovery
