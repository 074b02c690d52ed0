import ClauseDiscovery.Clause.Checked
import ClauseDiscovery.Proofs.Clause.Formula
import ClauseDiscovery.Proofs.Universe.InPlace

/-! Counting variables in 32-bit words. The rank of a clause is at most the number of its arguments.
As long as rank and arity together fit a word, a step counts without overflow whatever variables it
is offered: a literal with the last variable never comes to have its rank counted. Hence a text whose
arguments can be counted in a word is replayed without overflow. -/
namespace ClauseDiscovery
namespace Clause

variable {c d : Clause} {xs : List Candidate} {x : Candidate} {s : Side} {next r : UInt32}
  {vs : List UInt32} {a : Atom} {n : Nat}

/-- However a clause is grown, it has introduced at most as many variables as it has arguments. -/
theorem rank_le_length (h : ofCandidates? xs = some c) :
    c.rank.toNat ≤ (argumentsOf c.entries).length := by
  have hdistinct := distinct_le_length (argumentsOf c.entries)
  by_cases hs : distinct (argumentsOf c.entries) < UInt32.size
  · rw [(counted_of_ofCandidates? h).toNat_rank hs]
    exact hdistinct
  · have hrank : c.rank.toNat < UInt32.size := c.rank.toNat_lt
    omega

theorem checkedInOrder_eq (h : next.toNat + vs.length < UInt32.size) :
    checkedInOrder s next vs = .ok (inOrder s next vs) := by
  induction vs generalizing next with
  | nil => rfl
  | cons v vs ih =>
    rw [List.length_cons] at h
    unfold checkedInOrder inOrder
    split
    · have hup := toNat_add_one (v := next) (by omega)
      rw [countUp_of_lt (by omega)]
      exact ih (by omega)
    · have hrest : checkedInOrder s next vs = .ok (inOrder s next vs) := ih (by omega)
      by_cases hv : v < next
      · simpa [hv] using hrest
      · simp [hv]
        rfl

theorem lt_of_inOrder (h : next.toNat + vs.length < UInt32.size) (ho : inOrder s next vs) :
    ∀ v ∈ vs, v.toNat < next.toNat + vs.length := by
  induction vs generalizing next with
  | nil => simp
  | cons w vs ih =>
    rw [List.length_cons] at h ⊢
    rw [List.forall_mem_cons]
    unfold inOrder at ho
    split at ho
    · rename_i hw
      obtain ⟨_,rfl⟩ := hw
      have hup := toNat_add_one (v := w) (by omega)
      refine ⟨by omega,fun v hv => ?_⟩
      have hlt := ih (by omega) ho v hv
      omega
    · rw [Bool.and_eq_true,decide_eq_true_eq] at ho
      have hw := UInt32.lt_iff_toNat_lt.mp ho.1
      refine ⟨by omega,fun v hv => ?_⟩
      have hlt := ih (by omega) ho.2 v hv
      omega

theorem checkedRankWith_eq (h : ∀ v ∈ a.vars, v.toNat + 1 < UInt32.size) :
    checkedRankWith r a = .ok (rankWith r a) := by
  unfold checkedRankWith rankWith Atom.max?
  cases hm : a.vars.max? with
  | none => rfl
  | some m =>
    have hup : countUp m = .ok (m + 1) := countUp_of_lt (h m (max?_spec hm).1)
    simp [hup]

theorem toNat_rankWith_le (hr : r.toNat ≤ n) (hv : ∀ v ∈ a.vars, v.toNat < n)
    (hn : n < UInt32.size) : (rankWith r a).toNat ≤ n := by
  unfold rankWith Atom.max?
  cases hm : a.vars.max? with
  | none => exact hr
  | some m =>
    have hlt := hv m (max?_spec hm).1
    rw [UInt32.toNat_max,toNat_add_one (by omega)]
    exact Nat.max_le.mpr ⟨hr,hlt⟩

section Step

variable (h : c.rank.toNat + x.atom.predicate.arity < UInt32.size)
include h

theorem lt_of_admits (hx : c.admits x) :
    ∀ v ∈ x.atom.vars, v.toNat < c.rank.toNat + x.atom.predicate.arity := by
  simp only [admits,Bool.and_eq_true] at hx
  rw [← x.atom.length_vars] at h ⊢
  exact lt_of_inOrder h hx.2

theorem checkedAdmits_eq : c.checkedAdmits x = .ok (c.admits x) := by
  rw [← x.atom.length_vars] at h
  unfold checkedAdmits admits
  split
  · rename_i hx
    rw [hx,checkedInOrder_eq h]
    rfl
  · rename_i hx
    rw [Bool.not_eq_true] at hx
    rw [hx]
    rfl

/-- What is admitted has variables whose successors are words, and nothing else is counted. -/
theorem checkedExtend?_eq : c.checkedExtend? x = .ok (c.extend? x) := by
  unfold checkedExtend? Clause.extend?
  rw [checkedAdmits_eq h]
  by_cases hx : c.admits x
  · have hlt := lt_of_admits h hx
    have hrank : checkedRankWith c.rank x.atom = .ok (rankWith c.rank x.atom) :=
      checkedRankWith_eq fun v hv => (Nat.succ_le_of_lt (hlt v hv)).trans_lt h
    simp only [hx,↓reduceIte,bind,Except.bind,hrank]
    cases c.typing.useAll x.atom.predicate x.atom.vars <;> rfl
  · simp only [hx]
    rfl

theorem rank_of_extend?_le (hd : c.extend? x = some d) :
    d.rank.toNat ≤ c.rank.toNat + x.atom.predicate.arity := by
  have hlt := lt_of_admits h (admits_of_extend? hd)
  obtain ⟨e,_,rfl⟩ := eq_of_extend? hd
  exact toNat_rankWith_le (Nat.le_add_right _ _) hlt h

end Step

theorem checkedOfCandidates?_eq (h : (argumentsOf xs).length < UInt32.size) :
    checkedOfCandidates? xs = .ok (ofCandidates? xs) := by
  induction xs using List.reverseRecOn with
  | nil => rfl
  | append_singleton xs x ih =>
    rw [argumentsOf_append,argumentsOf_singleton,List.length_append,x.atom.length_vars] at h
    have hxs : checkedOfCandidates? xs = .ok (ofCandidates? xs) := ih (by omega)
    unfold checkedOfCandidates? ofCandidates? at hxs ⊢
    rw [List.foldlM_append,List.foldlM_append,hxs]
    cases hc : xs.foldlM Clause.extend? empty with
    | none => rfl
    | some c =>
      have hrank := rank_le_length hc
      rw [entries_ofCandidates? hc] at hrank
      have hstep : c.checkedExtend? x = .ok (c.extend? x) := checkedExtend?_eq (by omega)
      simp only [List.foldlM_cons,List.foldlM_nil,bind_pure]
      exact hstep

/-- A grown clause has no more variables than arguments. Where its rank and the arity of a literal
fit a word, reading the literal's variables and the whole step count without overflow, and so does
the replay of a text whose arguments fit a word. No digit overflows when all readings of a length
are listed; there are as many as the base to the power of the length, the loop ends in the round of
the last one, and filled in this way a universe holds its atoms. -/
theorem counts_without_overflow :
    (∀ xs c, ofCandidates? xs = some c →
      c.rank.toNat ≤ (argumentsOf c.entries).length ∧
      ∀ x : Candidate, c.rank.toNat + x.atom.predicate.arity ≤ UInt32.size - 1 →
        checkedInOrder x.side c.rank x.atom.vars = .ok (inOrder x.side c.rank x.atom.vars) ∧
        c.checkedExtend? x = .ok (c.extend? x) ∧
        ∀ d, c.extend? x = some d → d.rank.toNat ≤ c.rank.toNat + x.atom.predicate.arity) ∧
    (∀ xs, (argumentsOf xs).length ≤ UInt32.size - 1 →
      checkedOfCandidates? xs = .ok (ofCandidates? xs)) ∧
    (∀ (k : Nat) (base : UInt32), (Odometer.readings k base).length = base.toNat.pow k ∧
      ∀ rounds, Odometer.listInPlace k base rounds =
        .ok (if base.toNat.pow k ≤ rounds then some (Odometer.readings k base) else none)) ∧
    ∀ (ps : List Predicate) (bound : UInt32) (rounds : Nat),
      Universe.listInPlace bound rounds (Universe.arrange ps) =
        .ok (if ∀ p ∈ Universe.arrange ps, bound.toNat.pow p.arity ≤ rounds then
          some ((Universe.ofPredicates ps bound).atoms.map fun a => (a.predicate,a.vars))
          else none) := by
  have hsize : ∀ n, n ≤ UInt32.size - 1 → n < UInt32.size := fun n hn =>
    Nat.lt_of_le_pred (by decide) hn
  refine ⟨?_,?_,?_,?_⟩
  · intro xs c hc
    refine ⟨rank_le_length hc,fun x hx => ?_⟩
    have hfits := hsize _ hx
    have hvars : c.rank.toNat + x.atom.vars.length < UInt32.size := by rwa [x.atom.length_vars]
    exact ⟨checkedInOrder_eq hvars,checkedExtend?_eq hfits,fun d => rank_of_extend?_le hfits⟩
  · exact fun xs hxs => checkedOfCandidates?_eq (hsize _ hxs)
  · exact fun k base => ⟨Odometer.length_readings k base,Odometer.listInPlace_eq k base⟩
  · exact fun ps bound rounds => Universe.listInPlace_eq bound rounds (Universe.arrange ps)

end Clause

def Edge.toLast : Candidate := ⟨⟨.body,edge,[1,4294967295],rfl⟩,4⟩

namespace Clause

open Edge in
/-- After an edge, one to the last variable is refused without overflow; the pairs of digits below
the largest word are listed in its square of rounds and not in one less. -/
theorem counts_without_overflow_edge :
    (∃ c, ofCandidates? [on .body 0 1] = some c ∧ c.rank = 2 ∧
      c.rank.toNat + toLast.atom.predicate.arity ≤ UInt32.size - 1 ∧
      c.checkedExtend? toLast = .ok none) ∧
    (∃ readings, Odometer.listInPlace 2 4294967295 18446744065119617025 = .ok (some readings) ∧
      readings.length = 18446744065119617025) ∧
    Odometer.listInPlace 2 4294967295 18446744065119617024 = .ok none := by
  obtain ⟨hstep,_,hlist,_⟩ := counts_without_overflow
  have hpow : (4294967295 : UInt32).toNat.pow 2 = 18446744065119617025 := by decide
  have hgrown : ∃ c, ofCandidates? [on .body 0 1] = some c ∧ c.rank = 2 ∧
      c.rank.toNat + toLast.atom.predicate.arity ≤ UInt32.size - 1 ∧ c.extend? toLast = none :=
    ⟨_,rfl,by decide,by decide,by decide⟩
  obtain ⟨c,hc,hrank,hfits,hnone⟩ := hgrown
  obtain ⟨hlen,hrounds⟩ := hlist 2 4294967295
  rw [hpow] at hlen hrounds
  refine ⟨⟨c,hc,hrank,hfits,?_⟩,⟨_,?_,hlen⟩,?_⟩
  · rw [((hstep _ c hc).2 toLast hfits).2.1,hnone]
  · rw [hrounds,if_pos le_rfl]
  · rw [hrounds,if_neg (by decide)]

/-- Only the checks before it keep the rank of that edge from being counted. -/
example : checkedRankWith 2 Edge.toLast.atom = .error ⟨4294967295⟩ := by decide

end Clause
end ClauseDiscovery
