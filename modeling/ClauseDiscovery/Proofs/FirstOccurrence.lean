import Mathlib.Data.List.Induction
import Mathlib.Data.List.Nodup

/-! Lists without their repetitions, in the order of first occurrence. -/
namespace ClauseDiscovery

variable {α : Type} [DecidableEq α]

theorem eraseDups_append_singleton (xs : List α) (x : α) :
    (xs ++ [x]).eraseDups = if x ∈ xs then xs.eraseDups else xs.eraseDups ++ [x] := by
  rw [List.eraseDups_append]
  by_cases h : x ∈ xs <;> simp [List.removeAll,h,List.eraseDups_cons]

theorem nodup_eraseDups (xs : List α) : xs.eraseDups.Nodup := by
  induction xs using List.reverseRecOn with
  | nil => simp
  | append_singleton xs x ih =>
    rw [eraseDups_append_singleton]
    split
    · exact ih
    · rename_i h
      apply List.Nodup.append ih (by simp)
      simpa using h

end ClauseDiscovery
