import Mathlib

/-! A list of which one row is replaced, as the state of one thread among others is. -/
namespace ClauseDiscovery

variable {α : Type} {xs : List α} {i : Nat} {x y : α}

theorem sum_map_set {f : α → Nat} (h : xs[i]? = some x) (y : α) :
    ((xs.set i y).map f).sum + f x = (xs.map f).sum + f y := by
  induction xs generalizing i with
  | nil => simp at h
  | cons z xs ih =>
    cases i with
    | zero =>
      obtain rfl : z = x := by simpa using h
      simp only [List.set_cons_zero,List.map_cons,List.sum_cons]
      omega
    | succ i =>
      have hi := ih (i := i) (by simpa using h)
      simp only [List.set_cons_succ,List.map_cons,List.sum_cons]
      omega

theorem countP_eq_sum_map (q : α → Bool) (xs : List α) :
    xs.countP q = (xs.map fun x => (q x).toNat).sum := by
  induction xs with
  | nil => rfl
  | cons x xs ih => cases hx : q x <;> simp [hx,ih,Nat.add_comm]

theorem countP_set_add {q : α → Bool} (h : xs[i]? = some x) (y : α) :
    (xs.set i y).countP q + (q x).toNat = xs.countP q + (q y).toNat := by
  rw [countP_eq_sum_map,countP_eq_sum_map]
  exact sum_map_set h y

theorem countP_set_of_eq {q : α → Bool} (h : xs[i]? = some x) (hq : q y = q x) :
    (xs.set i y).countP q = xs.countP q := by
  have hadd := countP_set_add (q := q) h y
  rwa [hq,Nat.add_right_cancel_iff] at hadd

theorem countP_set_of_gain {q : α → Bool} (h : xs[i]? = some x) (hx : q x = false)
    (hy : q y = true) : (xs.set i y).countP q = xs.countP q + 1 := by
  simpa [hx,hy] using countP_set_add (q := q) h y

theorem countP_set_of_loss {q : α → Bool} (h : xs[i]? = some x) (hx : q x = true)
    (hy : q y = false) : xs.countP q = (xs.set i y).countP q + 1 := by
  simpa [hx,hy] using (countP_set_add (q := q) h y).symm

theorem mem_set_of_ne (hx : xs[i]? = some x) (hy : y ∈ xs) (hne : y ≠ x) (z : α) :
    y ∈ xs.set i z := by
  obtain ⟨j,hj⟩ := List.getElem?_of_mem hy
  have hij : i ≠ j := by
    rintro rfl
    exact hne (Option.some.inj (hj.symm.trans hx))
  exact List.mem_of_getElem? ((List.getElem?_set_ne hij).trans hj)

end ClauseDiscovery
