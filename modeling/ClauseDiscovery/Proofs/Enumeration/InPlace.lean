import ClauseDiscovery.Enumeration.InPlace
import ClauseDiscovery.Proofs.Enumeration.Permutation

/-! Listing by positions meets no fault and comes to an end, and it lists what stepping from
arrangement to arrangement lists. A row that is not the last is taken apart at the pivot `x`,
which a descending tail follows, and at the last number `z` of the tail above `x`. -/
namespace ClauseDiscovery
namespace Permutation

variable {i j k p x y z : Nat} {xs as bs ps : List Nat}

theorem next?_cases (xs : List Nat) :
    xs.Pairwise (· ≥ ·) ∧ next? xs = none ∨
    ∃ ps x as z bs, xs = ps ++ x :: (as ++ z :: bs) ∧ (as ++ z :: bs).Pairwise (· ≥ ·) ∧
      x < z ∧ (∀ b ∈ bs, b ≤ x) ∧ next? xs = some (ps ++ z :: (bs.reverse ++ x :: as.reverse)) := by
  induction xs with
  | nil => exact Or.inl ⟨List.Pairwise.nil,rfl⟩
  | cons y ys ih =>
    cases hn : next? (y :: ys) with
    | none => exact Or.inl ⟨next?_eq_none_iff.mp hn,rfl⟩
    | some l =>
      right
      rcases next?_cons_cases hn with ⟨zs,hzs,rfl⟩ | ⟨hnone,cs,z,ds,hys,rfl,hyz,hcs⟩
      · rcases ih with ⟨-,hnone⟩ | ⟨ps,x,as,z,bs,rfl,hdesc,hxz,hbs,hsome⟩
        · simp [hzs] at hnone
        · obtain rfl : zs = _ := Option.some.inj (hzs.symm.trans hsome)
          exact ⟨y :: ps,x,as,z,bs,rfl,hdesc,hxz,hbs,rfl⟩
      · have hsplit : ys = ds.reverse ++ z :: cs.reverse := by
          simpa using congrArg List.reverse hys
        refine ⟨[],y,ds.reverse,z,cs.reverse,by simp [hsplit],?_,hyz,by simpa using hcs,by simp⟩
        rw [← hsplit]
        exact next?_eq_none_iff.mp hnone

theorem read_of_getElem? (h : xs[i]? = some x) : read xs i = .ok x := by
  simp [read,h]

theorem pivot?_of_lt (hx : xs[i]? = some x) (hy : xs[i+1]? = some y) (h : x < y) :
    pivot? xs (i+1) = .ok (some i) := by
  rw [pivot?,read_of_getElem? hx,read_of_getElem? hy]
  exact if_pos h

theorem pivot?_succ (hx : xs[i]? = some x) (hy : xs[i+1]? = some y) (h : y ≤ x) :
    pivot? xs (i+1) = pivot? xs i := by
  rw [pivot?,read_of_getElem? hx,read_of_getElem? hy]
  exact if_neg (Nat.not_lt.mpr h)

theorem pivot?_add (h : (xs.drop i).Pairwise (· ≥ ·)) (hk : i + k < xs.length) :
    pivot? xs (i+k) = pivot? xs i := by
  induction k with
  | zero => rfl
  | succ k ih =>
    have hi : i + k < xs.length := by omega
    have hle : xs[i+k+1] ≤ xs[i+k] := by
      have hpair := List.pairwise_iff_getElem.mp h k (k+1) (by simp; omega) (by simp; omega)
        (Nat.lt_succ_self k)
      simp only [List.getElem_drop] at hpair
      exact hpair
    have hskip := pivot?_succ (List.getElem?_eq_getElem hi) (List.getElem?_eq_getElem hk) hle
    exact hskip.trans (ih hi)

theorem lastAbove_of_lt (hx : xs[p]? = some x) (hz : xs[j]? = some z) (h : x < z) :
    lastAbove xs p j = .ok j := by
  have hnot : ¬ z ≤ x := Nat.not_le.mpr h
  cases j <;> rw [lastAbove,read_of_getElem? hz,read_of_getElem? hx] <;> exact if_neg hnot

theorem lastAbove_succ (hx : xs[p]? = some x) (hy : xs[j+1]? = some y) (h : y ≤ x) :
    lastAbove xs p (j+1) = lastAbove xs p j := by
  rw [lastAbove,read_of_getElem? hy,read_of_getElem? hx]
  exact if_pos h

theorem lastAbove_add (hx : xs[p]? = some x) (h : ∀ y ∈ xs.drop (j+1), y ≤ x)
    (hk : j + k < xs.length) : lastAbove xs p (j+k) = lastAbove xs p j := by
  induction k with
  | zero => rfl
  | succ k ih =>
    have hy : xs[j+k+1]? = some xs[j+k+1] := List.getElem?_eq_getElem hk
    have hmem : xs[j+k+1] ∈ xs.drop (j+1) := by
      refine List.mem_of_getElem? (i := k) ?_
      rw [List.getElem?_drop,Nat.add_right_comm,hy]
    exact (lastAbove_succ hx hy (h _ hmem)).trans (ih (by omega))

theorem pivot?_of_descending (h : xs.Pairwise (· ≥ ·)) :
    pivot? xs (xs.length - 1) = .ok none := by
  cases hlen : xs.length with
  | zero => rfl
  | succ m =>
    have hadd := pivot?_add (i := 0) (k := m) (by simpa using h) (by omega)
    simpa [pivot?] using hadd

section Row

variable (hrow : xs = ps ++ x :: (as ++ z :: bs))
include hrow

theorem getElem?_pivot : xs[ps.length]? = some x := by
  simp [hrow]

theorem getElem?_tail (i : Nat) : xs[ps.length + 1 + i]? = (as ++ z :: bs)[i]? := by
  rw [hrow,List.getElem?_append_right (by omega),
    show ps.length + 1 + i - ps.length = i + 1 by omega,List.getElem?_cons_succ]

theorem length_row : xs.length = ps.length + 1 + as.length + 1 + bs.length := by
  rw [hrow]
  simp only [List.length_append,List.length_cons]
  omega

theorem pivot?_row (hdesc : (as ++ z :: bs).Pairwise (· ≥ ·)) (hxz : x < z) :
    pivot? xs (xs.length - 1) = .ok (some ps.length) := by
  have hlen := length_row hrow
  have hdrop : xs.drop (ps.length + 1) = as ++ z :: bs := by
    rw [hrow,← List.drop_drop,List.drop_left]
    rfl
  have hhead : ∃ y, xs[ps.length + 1]? = some y ∧ x < y := by
    have htail := getElem?_tail hrow 0
    cases as with
    | nil => exact ⟨z,htail,hxz⟩
    | cons a as =>
      have hza : a ≥ z := (List.pairwise_cons.mp hdesc).1 z (by simp)
      exact ⟨a,htail,by omega⟩
  obtain ⟨y,hy,hxy⟩ := hhead
  calc pivot? xs (xs.length - 1)
    _ = pivot? xs (ps.length + 1 + (as.length + bs.length)) := by rw [hlen]; congr 1; omega
    _ = pivot? xs (ps.length + 1) := pivot?_add (hdrop ▸ hdesc) (by omega)
    _ = .ok (some ps.length) := pivot?_of_lt (getElem?_pivot hrow) hy hxy

theorem lastAbove_row (hxz : x < z) (hbs : ∀ b ∈ bs, b ≤ x) :
    lastAbove xs ps.length (xs.length - 1) = .ok (ps.length + 1 + as.length) := by
  have hlen := length_row hrow
  have hz : xs[ps.length + 1 + as.length]? = some z := by simp [getElem?_tail hrow]
  have hdrop : xs.drop (ps.length + 1 + as.length + 1) = bs := by
    have hsplit : xs = (ps ++ x :: (as ++ [z])) ++ bs := by simp [hrow]
    rw [hsplit]
    exact List.drop_left' (by simp; omega)
  calc lastAbove xs ps.length (xs.length - 1)
    _ = lastAbove xs ps.length (ps.length + 1 + as.length + bs.length) := by
      rw [hlen]; congr 1; omega
    _ = lastAbove xs ps.length (ps.length + 1 + as.length) :=
      lastAbove_add (getElem?_pivot hrow) (by rwa [hdrop]) (by omega)
    _ = .ok (ps.length + 1 + as.length) := lastAbove_of_lt (getElem?_pivot hrow) hz hxz

theorem swap_row : swap xs ps.length (ps.length + 1 + as.length) =
    .ok (ps ++ z :: (as ++ x :: bs)) := by
  have hz : xs[ps.length + 1 + as.length]? = some z := by simp [getElem?_tail hrow]
  rw [swap,read_of_getElem? (getElem?_pivot hrow),read_of_getElem? hz]
  refine congrArg Except.ok ?_
  simp [hrow,Nat.add_assoc,Nat.add_comm 1]

end Row

theorem reverseFrom_append : reverseFrom (as ++ bs) as.length = .ok (as ++ bs.reverse) := by
  simp [reverseFrom]

theorem countDown_of_pos {n : Nat} (h : 0 < n) : countDown n = .ok (n-1) := by
  cases n with
  | zero => cases h
  | succ n => rfl

/-- A step in place is a step. -/
theorem advance_eq (xs : List Nat) : advance xs.length xs = .ok (next? xs) := by
  rcases next?_cases xs with ⟨hdesc,hnone⟩ | ⟨ps,x,as,z,bs,hrow,hdesc,hxz,hbs,hsome⟩
  · rw [advance,pivot?_of_descending hdesc,hnone]
    rfl
  · have hpos : 0 < xs.length := by
      rw [length_row hrow]
      omega
    have hreverse : reverseFrom (ps ++ z :: (as ++ x :: bs)) (ps.length + 1) =
        .ok (ps ++ z :: (bs.reverse ++ x :: as.reverse)) := by
      have htail : reverseFrom ((ps ++ [z]) ++ (as ++ x :: bs)) (ps ++ [z]).length =
          .ok ((ps ++ [z]) ++ (as ++ x :: bs).reverse) := reverseFrom_append
      simpa using htail
    simp only [advance,pivot?_row hrow hdesc hxz,countDown_of_pos hpos,
      lastAbove_row hrow hxz hbs,swap_row hrow,hreverse,hsome,bind,Except.bind]
    rfl

/-- The loop goes round once for each arrangement, unless the bound `b` cuts the steps short. -/
theorem listFrom_eq {n b k : Nat} {xs : List Nat} {listed : List (List Nat)} (hxs : xs.length = n)
    (hb : (successors next? b xs).length ≤ b) :
    listFrom n k xs listed = if (successors next? b xs).length ≤ k then
      some (.ok (listed ++ (successors next? b xs).tail)) else none := by
  induction k generalizing b xs listed with
  | zero =>
    have hne : successors next? b xs ≠ [] := successors_ne_nil b xs
    simp [listFrom,hne]
  | succ k ih =>
    cases b with
    | zero => simp [successors] at hb
    | succ b =>
      rw [listFrom,← hxs,advance_eq]
      cases hn : next? xs with
      | none => simp [successors,hn]
      | some ys =>
        have hlist : successors next? (b+1) xs = xs :: successors next? b ys := by
          simp [successors,hn]
        have hhead : (successors next? b ys).head? = some ys := head?_successors b ys
        obtain ⟨zs,hzs⟩ := List.head?_eq_some_iff.mp hhead
        have hys : ys.length = n := (perm_of_next? hn).length_eq.trans hxs
        have hrest := @ih b ys (listed ++ [ys]) hys (by simpa [hlist] using hb)
        simp [hxs,hrest,hlist,hzs]

theorem listInPlace_eq (n k : Nat) :
    listInPlace n k = if n.factorial ≤ k then some (.ok (all n)) else none := by
  obtain ⟨πs,hπs⟩ := all_eq_cons n
  have hlen : (successors next? (bound n) (List.range n)).length = n.factorial := length_all n
  have hb : (successors next? (bound n) (List.range n)).length ≤ bound n :=
    length_le_bound (nodup_all n) fun π hπ => mem_all_iff.mp hπ
  rw [listInPlace,listFrom_eq List.length_range hb,hlen,← all,hπs]
  rfl

/-- Listing in place meets no fault and ends, and what it lists is every permutation of the
numbers below `n`, each once and in ascending order, the identity first. -/
theorem listInPlace_complete (n : Nat) :
    (∀ k, listInPlace n k = if n.factorial ≤ k then some (.ok (all n)) else none) ∧
    (∀ π, (all n).count π = if π.Perm (List.range n) then 1 else 0) ∧
    (all n).length = n.factorial ∧ (all n).Pairwise (compare · · = .lt) ∧
    (all n).head? = some (List.range n) := by
  refine ⟨listInPlace_eq n,fun π => ?_,length_all n,pairwise_all n,head?_all n⟩
  rw [(nodup_all n).count]
  exact if_congr mem_all_iff rfl rfl

end Permutation
end ClauseDiscovery
