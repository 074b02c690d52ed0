import ClauseDiscovery.Enumeration.Successor
import Mathlib.Data.List.Nodup

/-! Complete listings. Where a step leads to the least larger value, a listing by successors
ascends, and it holds every value above its start once the bound on the number of steps is as
large as the number of values. -/
namespace ClauseDiscovery

variable {α : Type*} {cmp : α → α → Ordering} {P : α → Prop} {next? : α → Option α}

theorem nodup_of_ascending [Std.ReflCmp cmp] {l : List α} (h : l.Pairwise (cmp · · = .lt)) :
    l.Nodup := by
  refine h.imp fun hlt he => ?_
  simp [he,Std.ReflCmp.compare_self] at hlt

/-- Among the values with `P`, the step leads to the least one that is larger. -/
structure StepsUp (cmp : α → α → Ordering) (P : α → Prop) (next? : α → Option α) : Prop where
  stays : ∀ {x y}, P x → next? x = some y → P y
  ascends : ∀ {x y}, P x → next? x = some y → cmp x y = .lt
  least : ∀ {x z}, P x → P z → cmp x z = .lt → ∃ y, next? x = some y ∧ (cmp y z).isLE

namespace StepsUp

theorem of_mem_successors [Std.TransCmp cmp] (h : StepsUp cmp P next?) {n : Nat} {x y : α}
    (hx : P x) (hy : y ∈ successors next? n x) : P y ∧ (cmp x y).isLE := by
  induction n generalizing x with
  | zero =>
    obtain rfl : y = x := by simpa [successors] using hy
    exact ⟨hx,Std.ReflCmp.isLE_rfl⟩
  | succ n ih =>
    unfold successors at hy
    split at hy
    · obtain rfl : y = x := by simpa using hy
      exact ⟨hx,Std.ReflCmp.isLE_rfl⟩
    · rename_i z hz
      rcases List.mem_cons.mp hy with rfl | hy
      · exact ⟨hx,Std.ReflCmp.isLE_rfl⟩
      · obtain ⟨hPy,hle⟩ := ih (h.stays hx hz) hy
        have hlt := Std.TransCmp.lt_of_lt_of_isLE (h.ascends hx hz) hle
        exact ⟨hPy,by simp [hlt]⟩

theorem pairwise_successors [Std.TransCmp cmp] (h : StepsUp cmp P next?) (n : Nat) {x : α}
    (hx : P x) : (successors next? n x).Pairwise (cmp · · = .lt) := by
  induction n generalizing x with
  | zero => simp [successors]
  | succ n ih =>
    unfold successors
    split
    · simp
    · rename_i z hz
      have hz' := h.stays hx hz
      refine List.pairwise_cons.mpr ⟨?_,ih hz'⟩
      intro y hy
      exact Std.TransCmp.lt_of_lt_of_isLE (h.ascends hx hz) (h.of_mem_successors hz' hy).2

/-- A value above the start is listed, unless the steps were cut short. -/
theorem mem_successors_or_length [Std.TransCmp cmp] [Std.LawfulEqCmp cmp]
    (h : StepsUp cmp P next?) (n : Nat) {x z : α} (hx : P x) (hz : P z) (hxz : (cmp x z).isLE) :
    z ∈ successors next? n x ∨ (successors next? n x).length = n + 1 := by
  induction n generalizing x with
  | zero => exact Or.inr (by simp [successors])
  | succ n ih =>
    by_cases he : x = z
    · left
      subst he
      unfold successors
      split <;> simp
    · have hlt : cmp x z = .lt := by
        cases hc : cmp x z with
        | lt => rfl
        | eq => exact absurd (Std.LawfulEqCmp.eq_of_compare hc) he
        | gt => simp [hc] at hxz
      obtain ⟨y,hy,hyz⟩ := h.least hx hz hlt
      simp only [successors,hy,List.mem_cons,List.length_cons]
      rcases ih (h.stays hx hy) hyz with hm | hl
      · exact Or.inl (Or.inr hm)
      · exact Or.inr (by rw [hl])

theorem mem_successors_iff [Std.TransCmp cmp] [Std.LawfulEqCmp cmp] (h : StepsUp cmp P next?)
    {n : Nat} {x z : α} (hx : P x)
    (hn : ∀ l : List α, l.Nodup → (∀ y ∈ l, P y) → l.length ≤ n) :
    z ∈ successors next? n x ↔ P z ∧ (cmp x z).isLE := by
  constructor
  · exact h.of_mem_successors hx
  · rintro ⟨hz,hxz⟩
    rcases h.mem_successors_or_length n hx hz hxz with hm | hl
    · exact hm
    · have hne : (successors next? n x).Nodup := nodup_of_ascending (h.pairwise_successors n hx)
      have hle := hn _ hne fun y hy => (h.of_mem_successors hx hy).1
      omega

end StepsUp
end ClauseDiscovery
