import ClauseDiscovery.Enumeration.Permutation
import ClauseDiscovery.Proofs.Enumeration.Successor
import Mathlib.Data.List.Perm.Subperm
import Mathlib.Data.List.Permutation

/-! The arrangements of a list of numbers are all listed, each once and in ascending order: an
ascending list is the least of its arrangements, a descending one is the largest, and a step
leads from an arrangement to the least larger one. -/
namespace ClauseDiscovery
namespace Permutation

theorem exchange_eq_none_iff {x : Nat} {ys : List Nat} :
    exchange x ys = none ↔ ∀ y ∈ ys, y ≤ x := by
  induction ys with
  | nil => simp [exchange]
  | cons y ys ih =>
    unfold exchange
    split
    · rename_i h
      simp [h]
    · rename_i h
      simp [ih,Nat.not_lt.mp h]

theorem exchange_eq_some_iff {x z : Nat} {ys zs : List Nat} :
    exchange x ys = some (z,zs) ↔
      ∃ as bs, ys = as ++ z :: bs ∧ zs = as ++ x :: bs ∧ x < z ∧ ∀ a ∈ as, a ≤ x := by
  induction ys generalizing zs with
  | nil => simp [exchange]
  | cons y ys ih =>
    unfold exchange
    split
    · rename_i h
      constructor
      · intro he
        cases he
        exact ⟨[],ys,rfl,rfl,h,by simp⟩
      · rintro ⟨as,bs,hy,rfl,_,has⟩
        cases as with
        | nil =>
          cases hy
          rfl
        | cons a as =>
          have hya : y = a := (List.cons.inj hy).1
          have := has a (by simp)
          omega
    · rename_i h
      constructor
      · intro he
        obtain ⟨⟨w,ws⟩,hw,he⟩ := Option.map_eq_some_iff.mp he
        cases he
        obtain ⟨as,bs,rfl,rfl,hz,has⟩ := ih.mp hw
        refine ⟨y :: as,bs,rfl,rfl,hz,?_⟩
        intro a ha
        rcases List.mem_cons.mp ha with rfl | ha
        · omega
        · exact has a ha
      · rintro ⟨as,bs,hy,rfl,hz,has⟩
        cases as with
        | nil =>
          have hyz : y = z := (List.cons.inj hy).1
          omega
        | cons a as =>
          obtain ⟨rfl,hys⟩ := List.cons.inj hy
          have hw := ih.mpr ⟨as,bs,hys,rfl,hz,fun b hb => has b (by simp [hb])⟩
          simp [hw]

theorem isLE_of_ascending {l m : List Nat} (hl : l.Pairwise (· ≤ ·)) (h : m.Perm l) :
    (compare l m).isLE := by
  induction l generalizing m with
  | nil => simp [h.eq_nil]
  | cons a l ih =>
    cases m with
    | nil => exact absurd h.length_eq (by simp)
    | cons b m =>
      obtain ⟨ha,hl'⟩ := List.pairwise_cons.mp hl
      have hab : a ≤ b := List.forall_mem_cons.mpr ⟨le_refl a,ha⟩ b
        (h.subset (List.mem_cons_self ..))
      rw [List.compare_cons_cons]
      rcases Nat.lt_or_eq_of_le hab with hlt | rfl
      · simp [Nat.compare_eq_lt.mpr hlt]
      · simpa using ih hl' h.cons_inv

theorem isLE_of_descending {l m : List Nat} (hl : l.Pairwise (· ≥ ·)) (h : m.Perm l) :
    (compare m l).isLE := by
  induction l generalizing m with
  | nil => simp [h.eq_nil]
  | cons a l ih =>
    cases m with
    | nil => exact absurd h.length_eq (by simp)
    | cons b m =>
      obtain ⟨ha,hl'⟩ := List.pairwise_cons.mp hl
      have hab : a ≥ b := List.forall_mem_cons.mpr ⟨show a ≥ a from le_rfl,ha⟩ b
        (h.subset (List.mem_cons_self ..))
      rw [List.compare_cons_cons]
      rcases Nat.lt_or_eq_of_le hab with hlt | rfl
      · simp [Nat.compare_eq_lt.mpr hlt]
      · simpa using ih hl' h.cons_inv

theorem next?_eq_none_iff {l : List Nat} : next? l = none ↔ l.Pairwise (· ≥ ·) := by
  induction l with
  | nil => simp [next?]
  | cons x xs ih =>
    unfold next?
    cases hn : next? xs with
    | some ys =>
      have hxs : ¬ xs.Pairwise (· ≥ ·) := fun h => by simp [ih.mpr h] at hn
      simp [hxs]
    | none =>
      have hxs := ih.mp hn
      simp [exchange_eq_none_iff,hxs]

/-- What a step does: it steps in the tail, or it raises the head above a descending tail. -/
theorem next?_cons_cases {x : Nat} {xs l : List Nat} (h : next? (x :: xs) = some l) :
    (∃ ys, next? xs = some ys ∧ l = x :: ys) ∨
    (next? xs = none ∧ ∃ as z bs, xs.reverse = as ++ z :: bs ∧ l = z :: (as ++ x :: bs) ∧
      x < z ∧ ∀ a ∈ as, a ≤ x) := by
  unfold next? at h
  cases hn : next? xs with
  | some ys =>
    left
    exact ⟨ys,rfl,by simpa [hn] using h.symm⟩
  | none =>
    right
    simp only [hn,Option.map_eq_some_iff] at h
    obtain ⟨⟨z,zs⟩,he,rfl⟩ := h
    obtain ⟨as,bs,has,rfl,hz,hle⟩ := exchange_eq_some_iff.mp he
    exact ⟨rfl,as,z,bs,has,rfl,hz,hle⟩

theorem perm_of_next? {l m : List Nat} (h : next? l = some m) : m.Perm l := by
  induction l generalizing m with
  | nil => simp [next?] at h
  | cons x xs ih =>
    rcases next?_cons_cases h with ⟨ys,hys,rfl⟩ | ⟨_,as,z,bs,hxs,rfl,_⟩
    · exact (ih hys).cons x
    · have hp : (as ++ z :: bs).Perm xs := hxs ▸ xs.reverse_perm
      calc List.Perm (z :: (as ++ x :: bs)) (z :: x :: (as ++ bs)) := List.perm_middle.cons z
        List.Perm _ (x :: z :: (as ++ bs)) := List.Perm.swap ..
        List.Perm _ (x :: xs) := (List.perm_middle.symm.trans hp).cons x

theorem lt_of_next? {l m : List Nat} (h : next? l = some m) : compare l m = .lt := by
  induction l generalizing m with
  | nil => simp [next?] at h
  | cons x xs ih =>
    rcases next?_cons_cases h with ⟨ys,hys,rfl⟩ | ⟨_,as,z,bs,_,rfl,hz,_⟩
    · simpa [List.compare_cons_cons] using ih hys
    · simp [List.compare_cons_cons,Nat.compare_eq_lt.mpr hz]

section Exchange

variable {x y z : Nat} {as bs zs : List Nat} (hasc : (as ++ y :: bs).Pairwise (· ≤ ·))
  (hxy : x < y) (has : ∀ a ∈ as, a ≤ x)
include hasc has

theorem le_of_mem_of_lt (hz : z ∈ as ++ y :: bs) (hxz : x < z) : y ≤ z := by
  rcases List.mem_append.mp hz with h | h
  · have := has z h
    omega
  · rcases List.mem_cons.mp h with rfl | h
    · exact le_rfl
    · exact (List.pairwise_cons.mp (List.pairwise_append.mp hasc).2.1).1 z h

include hxy

theorem pairwise_exchange : (as ++ x :: bs).Pairwise (· ≤ ·) := by
  obtain ⟨hpa,hpy,hcross⟩ := List.pairwise_append.mp hasc
  obtain ⟨hyb,hpb⟩ := List.pairwise_cons.mp hpy
  refine List.pairwise_append.mpr ⟨hpa,List.pairwise_cons.mpr ⟨?_,hpb⟩,?_⟩
  · intro b hb
    have := hyb b hb
    omega
  · intro a ha b hb
    rcases List.mem_cons.mp hb with rfl | hb
    · exact has a ha
    · exact hcross a ha b (List.mem_cons_of_mem _ hb)

/-- The exchange leads to the least arrangement with a larger head. -/
theorem exchange_isLE (hz : z ∈ as ++ y :: bs) (hxz : x < z)
    (hp : (z :: zs).Perm (y :: (as ++ x :: bs))) :
    (compare (y :: (as ++ x :: bs)) (z :: zs)).isLE := by
  rw [List.compare_cons_cons]
  rcases Nat.lt_or_eq_of_le (le_of_mem_of_lt hasc has hz hxz) with hlt | rfl
  · simp [Nat.compare_eq_lt.mpr hlt]
  · simpa using isLE_of_ascending (pairwise_exchange hasc hxy has) hp.cons_inv

end Exchange

theorem next?_isLE {l m : List Nat} (hp : m.Perm l) (hlt : compare l m = .lt) :
    ∃ k, next? l = some k ∧ (compare k m).isLE := by
  induction l generalizing m with
  | nil => simp [hp.eq_nil] at hlt
  | cons x xs ih =>
    cases m with
    | nil => exact absurd hp.length_eq (by simp)
    | cons z zs =>
      rw [List.compare_cons_cons,Ordering.then_eq_lt,Nat.compare_eq_lt,Nat.compare_eq_eq] at hlt
      cases hn : next? xs with
      | some ys =>
        refine ⟨x :: ys,by simp [next?,hn],?_⟩
        rw [List.compare_cons_cons]
        rcases hlt with hxz | ⟨rfl,hlt⟩
        · simp [Nat.compare_eq_lt.mpr hxz]
        · obtain ⟨k,hk,hle⟩ := ih hp.cons_inv hlt
          rw [hn] at hk
          cases hk
          simpa using hle
      | none =>
        have hdesc := next?_eq_none_iff.mp hn
        have hxz : x < z := by
          rcases hlt with hxz | ⟨rfl,hlt⟩
          · exact hxz
          · have hle := isLE_of_descending hdesc hp.cons_inv
            exact absurd hle (Std.OrientedCmp.not_isLE_of_lt hlt)
        have hzmem : z ∈ xs := by
          rcases List.mem_cons.mp (hp.subset (List.mem_cons_self ..)) with rfl | h
          · omega
          · exact h
        cases hnl : next? (x :: xs) with
        | none =>
          have := (List.pairwise_cons.mp (next?_eq_none_iff.mp hnl)).1 z hzmem
          omega
        | some k =>
          refine ⟨k,rfl,?_⟩
          have hpk := hp.trans (perm_of_next? hnl).symm
          rcases next?_cons_cases hnl with ⟨ys,hys,_⟩ | ⟨_,as,y,bs,hxs,rfl,hxy,has⟩
          · simp [hn] at hys
          · have hasc : (as ++ y :: bs).Pairwise (· ≤ ·) := by
              rw [← hxs,List.pairwise_reverse]
              exact hdesc
            exact exchange_isLE hasc hxy has (hxs ▸ List.mem_reverse.mpr hzmem) hxz hpk

theorem stepsUp (l : List Nat) : StepsUp compare (List.Perm · l) next? where
  stays hx hn := (perm_of_next? hn).trans hx
  ascends _ hn := lt_of_next? hn
  least hx hz hlt := next?_isLE (hz.trans hx.symm) hlt

theorem length_le_bound {n : Nat} {l : List (List Nat)} (hl : l.Nodup)
    (hp : ∀ π ∈ l, π.Perm (List.range n)) : l.length ≤ bound n := by
  have hs : l ⊆ (List.range n).permutations := fun π hπ => List.mem_permutations.mpr (hp π hπ)
  calc l.length ≤ (List.range n).permutations.length := (List.Nodup.subperm hl hs).length_le
    _ = n.factorial := by rw [List.length_permutations,List.length_range]
    _ ≤ bound n := Nat.factorial_le_pow n

/-- All permutations are listed, and nothing else. -/
theorem mem_all_iff {n : Nat} {π : List Nat} : π ∈ all n ↔ π.Perm (List.range n) := by
  unfold all
  rw [(stepsUp (List.range n)).mem_successors_iff (List.Perm.refl _)
    (fun l hl hp => length_le_bound hl hp)]
  constructor
  · exact And.left
  · intro h
    exact ⟨h,isLE_of_ascending List.pairwise_le_range h⟩

theorem pairwise_all (n : Nat) : (all n).Pairwise (compare · · = .lt) :=
  (stepsUp (List.range n)).pairwise_successors _ (List.Perm.refl _)

theorem nodup_all (n : Nat) : (all n).Nodup := nodup_of_ascending (pairwise_all n)

theorem length_all (n : Nat) : (all n).length = n.factorial := by
  have hperm : (all n).Perm (List.range n).permutations := by
    refine (List.perm_ext_iff_of_nodup (nodup_all n) (List.nodup_permutations _ ?_)).mpr
      fun π => ?_
    · exact List.nodup_range
    · rw [mem_all_iff,List.mem_permutations]
  rw [hperm.length_eq,List.length_permutations,List.length_range]

theorem all_eq_cons (n : Nat) : ∃ πs, all n = List.range n :: πs := by
  cases h : all n with
  | nil =>
    have hh := head?_all n
    simp [h] at hh
  | cons π πs =>
    have hh := head?_all n
    rw [h] at hh
    obtain rfl : π = List.range n := by simpa using hh
    exact ⟨πs,rfl⟩

theorem allButIdentity_iff {n : Nat} {p : List Nat → Bool} :
    allButIdentity n p ↔ ∀ π, π.Perm (List.range n) → π ≠ List.range n → p π := by
  obtain ⟨πs,hπs⟩ := all_eq_cons n
  have hpw := hπs ▸ pairwise_all n
  rw [allButIdentity_eq,hπs,List.tail_cons,List.all_eq_true]
  constructor
  · intro h π hπ hne
    have hm : π ∈ List.range n :: πs := hπs ▸ mem_all_iff.mpr hπ
    exact h π ((List.mem_cons.mp hm).resolve_left hne)
  · intro h π hπ
    have hm : π ∈ all n := hπs ▸ List.mem_cons_of_mem _ hπ
    apply h π (mem_all_iff.mp hm)
    rintro rfl
    have := (List.pairwise_cons.mp hpw).1 _ hπ
    simp at this

end Permutation
end ClauseDiscovery
