import ClauseDiscovery.Proofs.Universe
import Mathlib.Data.List.Chain

/-! Predicates that are given more than once. A repetition is removed where it comes next to its
like in the order, and the order may give different predicates one place. So a repetition has an
effect exactly where a different predicate of the same place comes between: then the universe
holds the atoms twice. -/
namespace ClauseDiscovery

section StableSort

variable {α : Type*} {cmp : α → α → Ordering} [Std.TransCmp cmp] {as bs : List α}

/-- Sorting leaves the members of one place in their order. -/
theorem filter_mergeSort (a : α) (as : List α) :
    (as.mergeSort fun b c => (cmp b c).isLE).filter (cmp a · == .eq) =
      as.filter (cmp a · == .eq) := by
  have htied : (as.filter (cmp a · == .eq)).Pairwise fun b c => (cmp b c).isLE := by
    apply List.pairwise_of_forall_mem_list
    intro b hb c hc
    have hab : cmp a b = .eq := by simpa using (List.mem_filter.mp hb).2
    have hac : cmp a c = .eq := by simpa using (List.mem_filter.mp hc).2
    simp [Std.TransCmp.eq_trans (Std.OrientedCmp.eq_symm hab) hac]
  have hsub := List.sublist_mergeSort (fun _ _ _ => Std.TransCmp.isLE_trans) isLE_total htied
    List.filter_sublist
  have hfilter := hsub.filter (cmp a · == .eq)
  simp only [List.filter_filter,Bool.and_self] at hfilter
  exact (hfilter.eq_of_length ((List.mergeSort_perm as _).filter _).length_eq.symm).symm

theorem eq_of_filter_eq (ha : as.Pairwise fun b c => (cmp b c).isLE)
    (hb : bs.Pairwise fun b c => (cmp b c).isLE)
    (h : ∀ c, as.filter (cmp c · == .eq) = bs.filter (cmp c · == .eq)) : as = bs := by
  have hmem : ∀ {cs ds : List α}, (∀ c, cs.filter (cmp c · == .eq) = ds.filter (cmp c · == .eq)) →
      ∀ c ∈ cs, c ∈ ds := by
    intro cs ds h c hc
    have hin : c ∈ cs.filter (cmp c · == .eq) := by simpa [Std.ReflCmp.compare_self] using hc
    exact (List.mem_filter.mp (h c ▸ hin)).1
  induction as generalizing bs with
  | nil =>
    cases bs with
    | nil => rfl
    | cons b bs => exact absurd (hmem (fun c => (h c).symm) b List.mem_cons_self) List.not_mem_nil
  | cons a as ih =>
    cases bs with
    | nil => exact absurd (hmem h a List.mem_cons_self) List.not_mem_nil
    | cons b bs =>
      obtain ⟨haas,has⟩ := List.pairwise_cons.mp ha
      obtain ⟨hbbs,hbs⟩ := List.pairwise_cons.mp hb
      -- the heads have the same place, and in it each of them is the first
      have hab : (cmp a b).isLE := by
        rcases List.mem_cons.mp (hmem (fun c => (h c).symm) b List.mem_cons_self) with rfl | hm
        · exact Std.ReflCmp.isLE_rfl
        · exact haas b hm
      have hba : (cmp b a).isLE := by
        rcases List.mem_cons.mp (hmem h a List.mem_cons_self) with rfl | hm
        · exact Std.ReflCmp.isLE_rfl
        · exact hbbs a hm
      have htied : cmp a b = .eq := Std.OrientedCmp.isLE_antisymm hab hba
      have hheads := h a
      simp only [List.filter_cons,Std.ReflCmp.compare_self,htied,beq_self_eq_true,if_true,
        List.cons.injEq] at hheads
      obtain rfl : a = b := hheads.1
      refine congrArg (a :: ·) (ih has hbs fun c => ?_)
      have hc := h c
      simp only [List.filter_cons] at hc
      split at hc
      · exact (List.cons.inj hc).2
      · exact hc

theorem exists_split (has : as.Pairwise fun b c => (cmp b c).isLE) (a : α) : ∃ bs cs,
    as = bs ++ cs ∧ (∀ b ∈ bs, (cmp b a).isLE) ∧ ∀ c ∈ cs, cmp a c = .lt := by
  induction as with
  | nil => exact ⟨[],[],rfl,by simp,by simp⟩
  | cons b as ih =>
    obtain ⟨hb,has⟩ := List.pairwise_cons.mp has
    by_cases hba : (cmp b a).isLE
    · obtain ⟨bs,cs,rfl,hbs,hcs⟩ := ih has
      exact ⟨b :: bs,cs,rfl,List.forall_mem_cons.mpr ⟨hba,hbs⟩,hcs⟩
    · have hab : cmp a b = .lt := Std.OrientedCmp.lt_of_not_isLE hba
      refine ⟨[],b :: as,rfl,by simp,List.forall_mem_cons.mpr ⟨hab,fun c hc => ?_⟩⟩
      exact Std.TransCmp.lt_of_lt_of_isLE hab (hb c hc)

variable (cmp) in
theorem mergeSort_append_singleton (as : List α) (a : α) : ∃ bs cs,
    (as.mergeSort fun b c => (cmp b c).isLE) = bs ++ cs ∧
    ((as ++ [a]).mergeSort fun b c => (cmp b c).isLE) = bs ++ a :: cs ∧
    (∀ b ∈ bs, (cmp b a).isLE) ∧ ∀ c ∈ cs, cmp a c = .lt := by
  have hsorted := pairwise_mergeSort_isLE cmp as
  obtain ⟨bs,cs,happ,hbs,hcs⟩ := exists_split hsorted a
  refine ⟨bs,cs,happ,?_,hbs,hcs⟩
  rw [happ] at hsorted
  obtain ⟨hpb,hpc,hbc⟩ := List.pairwise_append.mp hsorted
  apply eq_of_filter_eq (pairwise_mergeSort_isLE cmp _)
  · refine List.pairwise_append.mpr ⟨hpb,List.pairwise_cons.mpr ⟨fun c hc => ?_,hpc⟩,?_⟩
    · simp [hcs c hc]
    · intro b hb c hc
      rcases List.mem_cons.mp hc with rfl | hc
      · exact hbs b hb
      · exact hbc b hb c hc
  · intro d
    rw [filter_mergeSort,List.filter_append,← filter_mergeSort,happ,List.filter_append,
      List.filter_append,List.append_assoc]
    congr 1
    by_cases hda : cmp d a = .eq
    · have hnil : cs.filter (cmp d · == .eq) = [] := by
        rw [List.filter_eq_nil_iff]
        intro c hc
        simp [Std.TransCmp.lt_of_eq_of_lt hda (hcs c hc)]
      simp [hda,hnil]
    · simp [hda]

end StableSort

section Neighbours

variable {α : Type*} [DecidableEq α] {a b : α} {as bs cs : List α}

theorem eraseReps_cons (a : α) (as : List α) : (a :: as).eraseReps =
    if as.head? = some a then as.eraseReps else a :: as.eraseReps := by
  cases as with
  | nil => rfl
  | cons b as =>
    rw [eraseReps_cons_cons]
    simp [eq_comm]

theorem head?_eraseReps (as : List α) : as.eraseReps.head? = as.head? := by
  induction as with
  | nil => rfl
  | cons a as ih =>
    rw [eraseReps_cons]
    split
    · rename_i h
      rw [ih,h]
      rfl
    · rfl

theorem eraseReps_sublist_cons (a : α) (as : List α) :
    as.eraseReps.Sublist (a :: as).eraseReps := by
  rw [eraseReps_cons]
  split
  · exact .refl _
  · exact List.sublist_cons_self a _

theorem eraseReps_append (h : ∀ a ∈ as.getLast?, ∀ b ∈ bs.head?, a ≠ b) :
    (as ++ bs).eraseReps = as.eraseReps ++ bs.eraseReps := by
  induction as with
  | nil => rfl
  | cons a as ih =>
    rw [List.cons_append,eraseReps_cons,eraseReps_cons]
    cases as with
    | nil =>
      have hne : bs.head? ≠ some a := fun hb => h a rfl a hb rfl
      simp [hne,List.eraseReps,List.eraseRepsBy]
    | cons c as =>
      rw [ih h]
      by_cases hac : c = a <;> simp [hac]

theorem eraseReps_append_self (as bs : List α) (a : α) :
    (as ++ a :: a :: bs).eraseReps = (as ++ a :: bs).eraseReps := by
  induction as with
  | nil => exact (eraseReps_cons_cons a a bs).trans (if_pos rfl)
  | cons c as ih =>
    have hhead : (as ++ a :: a :: bs).head? = (as ++ a :: bs).head? := by cases as <;> rfl
    rw [List.cons_append,List.cons_append,eraseReps_cons,eraseReps_cons,ih,hhead]

theorem sublist_eraseReps (hcs : cs.IsChain (· ≠ ·)) (h : cs.Sublist as) :
    cs.Sublist as.eraseReps := by
  induction h with
  | slnil => exact .slnil
  | cons a h ih => exact (ih hcs).trans (eraseReps_sublist_cons a _)
  | @cons_cons cs as a h ih =>
    have hcs' := ih hcs.tail
    rw [eraseReps_cons]
    split
    · rename_i hhead
      rw [← head?_eraseReps] at hhead
      obtain ⟨t,ht⟩ := List.head?_eq_some_iff.mp hhead
      rw [ht] at hcs' ⊢
      refine List.Sublist.cons_cons a ?_
      cases hcs' with
      | cons _ h => exact h
      | cons_cons => exact absurd rfl (List.isChain_cons_cons.mp hcs).1
    · exact hcs'.cons_cons a

/-- What stays twice is parted by something else. -/
theorem pair_sublist_eraseReps_iff :
    [a,a].Sublist as.eraseReps ↔ ∃ b, b ≠ a ∧ [a,b,a].Sublist as := by
  constructor
  · intro h
    induction as with
    | nil => cases h
    | cons c as ih =>
      rw [eraseReps_cons] at h
      split at h
      · obtain ⟨b,hb,hs⟩ := ih h
        exact ⟨b,hb,hs.cons c⟩
      · rename_i hhead
        cases h with
        | cons _ h =>
          obtain ⟨b,hb,hs⟩ := ih h
          exact ⟨b,hb,hs.cons c⟩
        | cons_cons _ h =>
          have ha : a ∈ as := mem_eraseReps.mp (List.singleton_sublist.mp h)
          cases as with
          | nil => simp at ha
          | cons b as =>
            have hb : b ≠ a := by simpa using hhead
            have ha : a ∈ as := (List.mem_cons.mp ha).resolve_left hb.symm
            exact ⟨b,hb,((List.singleton_sublist.mpr ha).cons_cons b).cons_cons a⟩
  · rintro ⟨b,hb,h⟩
    have hchain : [a,b,a].IsChain (· ≠ ·) := by simp [hb,hb.symm]
    have hs := sublist_eraseReps hchain h
    exact (List.Sublist.cons_cons a (List.sublist_cons_self b [a])).trans hs

end Neighbours

/-- The predicates of a list in the same place of the order as `p`. -/
def Predicate.peers (p : Predicate) (ps : List Predicate) : List Predicate :=
  ps.filter (p.compare · == .eq)

namespace Universe

variable {ps : List Predicate} {p q : Predicate} {n : UInt32}

theorem getLast?_eq_some_iff {qs : List Predicate} (h : qs.Pairwise fun q r => (q.compare r).isLE)
    (hle : ∀ q ∈ qs, (q.compare p).isLE) :
    qs.getLast? = some p ↔ (p.peers qs).getLast? = some p := by
  rcases List.eq_nil_or_concat' qs with rfl | ⟨rs,q,rfl⟩
  · rfl
  · rw [Predicate.peers,List.filter_append,List.getLast?_concat]
    by_cases hpq : p.compare q = .eq
    · simp [hpq]
    · have hne : q ≠ p := fun he => hpq (he ▸ p.compare_self)
      have hnil : rs.filter (p.compare · == .eq) = [] := by
        rw [List.filter_eq_nil_iff]
        intro r hr
        have hrq : (r.compare q).isLE :=
          (List.pairwise_append.mp h).2.2 r hr q List.mem_cons_self
        have hqp : q.compare p = .lt := Std.OrientedCmp.lt_of_not_isLE fun hle' =>
          hpq (Std.OrientedCmp.isLE_antisymm hle' (hle q (by simp)))
        simp [Std.OrientedCmp.gt_of_lt (Std.TransCmp.lt_of_isLE_of_lt hrq hqp)]
      simp [hpq,hne,hnil]

theorem arrange_append_singleton (ps : List Predicate) (p : Predicate) : ∃ qs rs,
    arrange ps = qs ++ rs ∧ arrange (ps ++ [p]) =
      if (p.peers ps).getLast? = some p then qs ++ rs else qs ++ p :: rs := by
  obtain ⟨qs,rs,hsort,hsort',hqs,hrs⟩ := mergeSort_append_singleton Predicate.compare ps p
  have hsorted := pairwise_mergeSort_isLE Predicate.compare ps
  rw [hsort] at hsorted
  obtain ⟨hpq,-,hqr⟩ := List.pairwise_append.mp hsorted
  have hpeers : p.peers ps = p.peers qs := by
    have hnil : rs.filter (p.compare · == .eq) = [] := by
      rw [List.filter_eq_nil_iff]
      intro r hr
      simp [hrs r hr]
    rw [Predicate.peers,← filter_mergeSort,hsort,List.filter_append,hnil,List.append_nil]
    rfl
  have hlast : qs.getLast? = some p ↔ (p.peers ps).getLast? = some p := by
    rw [hpeers]
    exact getLast?_eq_some_iff hpq hqs
  have hparted : ∀ q ∈ qs.getLast?, ∀ r ∈ rs.head?, q ≠ r := by
    rintro q hq _ hr rfl
    have hle := hqs q (List.mem_of_getLast? hq)
    have hlt := hrs q (List.mem_of_head? hr)
    rw [Std.OrientedCmp.gt_of_lt hlt] at hle
    cases hle
  refine ⟨qs.eraseReps,rs.eraseReps,?_,?_⟩
  · rw [arrange,hsort,eraseReps_append hparted]
  · rw [arrange,hsort']
    split
    · rename_i h
      obtain ⟨qs',rfl⟩ := List.getLast?_eq_some_iff.mp (hlast.mpr h)
      rw [List.append_assoc,List.singleton_append,eraseReps_append_self,← List.singleton_append,
        ← List.append_assoc,eraseReps_append hparted]
    · rename_i h
      have hqp : ∀ q ∈ qs.getLast?, ∀ r ∈ (p :: rs).head?, q ≠ r := by
        rintro q hq r ⟨⟩ rfl
        exact h (hlast.mp hq)
      have hpr : rs.head? ≠ some p := by
        intro hr
        have hlt := hrs p (List.mem_of_head? hr)
        rw [Predicate.compare_self] at hlt
        cases hlt
      rw [eraseReps_append hqp,eraseReps_cons,if_neg hpr]

theorem atomsOf_eq_nil_iff : atomsOf n p = [] ↔ p.arity ≠ 0 ∧ n = 0 := by
  rw [atomsOf,List.map_eq_nil_iff,List.attach_eq_nil_iff,Odometer.readings]
  split
  · simpa
  · rename_i h
    simpa [successors_ne_nil] using h

/-- To give `p` once more has no effect if the last predicate in its place is `p`, or if it has no
atoms anyway. -/
theorem atoms_append_singleton_eq_iff (ps : List Predicate) (p : Predicate) (n : UInt32) :
    (ofPredicates (ps ++ [p]) n).atoms = (ofPredicates ps n).atoms ↔
      (p.peers ps).getLast? = some p ∨ p.arity ≠ 0 ∧ n = 0 := by
  obtain ⟨qs,rs,h,h'⟩ := arrange_append_singleton ps p
  simp only [ofPredicates,h,h']
  rw [← atomsOf_eq_nil_iff]
  split
  · rename_i hlast
    simp [hlast]
  · rename_i hlast
    simp [hlast]

theorem pair_sublist_arrange_iff :
    [p,p].Sublist (arrange ps) ↔ ∃ q, q ≠ p ∧ [p,q,p].Sublist (p.peers ps) := by
  rw [arrange,pair_sublist_eraseReps_iff]
  refine exists_congr fun q => and_congr_right fun _ => ?_
  have hpeers : p.peers ps = (ps.mergeSort fun p q => (p.compare q).isLE).filter (p.compare · == .eq) :=
    (filter_mergeSort p ps).symm
  rw [hpeers]
  constructor
  · intro h
    have hsorted := (pairwise_mergeSort_isLE Predicate.compare ps).sublist h
    have htied : p.compare q = .eq := by
      obtain ⟨hp,hq⟩ := List.pairwise_cons.mp hsorted
      exact Std.OrientedCmp.isLE_antisymm (hp q (by simp)) ((List.pairwise_cons.mp hq).1 p (by simp))
    simpa [htied] using h.filter (p.compare · == .eq)
  · exact fun h => h.trans List.filter_sublist

theorem nodup_atomsOf (n : UInt32) (p : Predicate) : (atomsOf n p).Nodup :=
  (pairwise_atomsOf n p).imp Atom.ne_of_compare_lt

theorem disjoint_atomsOf_iff :
    (atomsOf n p).Disjoint (atomsOf n q) ↔ (p = q → atomsOf n p = []) := by
  constructor
  · rintro h rfl
    exact List.eq_nil_iff_forall_not_mem.mpr fun a ha => h ha ha
  · intro h a hp hq
    obtain rfl : p = q := (mem_atomsOf.mp hp).1.symm.trans (mem_atomsOf.mp hq).1
    rw [h rfl] at hp
    cases hp

/-- No atom is held twice unless two occurrences of its predicate are parted by a different
predicate in the same place. -/
theorem nodup_atoms_iff (ps : List Predicate) (n : UInt32) : (ofPredicates ps n).atoms.Nodup ↔
    ∀ p q : Predicate, q ≠ p → [p,q,p].Sublist (p.peers ps) → p.arity ≠ 0 ∧ n = 0 := by
  simp only [ofPredicates,List.nodup_flatMap,nodup_atomsOf,implies_true,true_and,
    List.pairwise_iff_forall_sublist,Function.onFun,disjoint_atomsOf_iff,← atomsOf_eq_nil_iff]
  constructor
  · exact fun h p q hqp hs => h (pair_sublist_arrange_iff.mpr ⟨q,hqp,hs⟩) rfl
  · rintro h p _ hs rfl
    obtain ⟨q,hqp,hs⟩ := pair_sublist_arrange_iff.mp hs
    exact h p q hqp hs

/-- To give a predicate once more leaves the universe as it was exactly if the last predicate in its
place is itself, and no atom is held twice exactly if no two occurrences of a predicate are parted
by a different one in its place; a predicate that has no atoms does not count. So where the order
tells the predicates apart, repetitions have no effect. -/
theorem ofPredicates_repetition (ps : List Predicate) (n : UInt32) :
    (∀ p, (ofPredicates (ps ++ [p]) n).atoms = (ofPredicates ps n).atoms ↔
      (p.peers ps).getLast? = some p ∨ p.arity ≠ 0 ∧ n = 0) ∧
    ((ofPredicates ps n).atoms.Nodup ↔
      ∀ p q : Predicate, q ≠ p → [p,q,p].Sublist (p.peers ps) → p.arity ≠ 0 ∧ n = 0) ∧
    (Predicate.ToldApart ps →
      (∀ p ∈ ps, (ofPredicates (ps ++ [p]) n).atoms = (ofPredicates ps n).atoms) ∧
        (ofPredicates ps n).atoms.Nodup) := by
  refine ⟨fun p => atoms_append_singleton_eq_iff ps p n,nodup_atoms_iff ps n,fun h => ⟨?_,?_⟩⟩
  · intro p hp
    refine (atoms_append_singleton_eq_iff ps p n).mpr (Or.inl ?_)
    have hpeer : p ∈ p.peers ps := List.mem_filter.mpr ⟨hp,by simp⟩
    rw [List.getLast?_eq_some_getLast (List.ne_nil_of_mem hpeer)]
    obtain ⟨hlast,htied⟩ := List.mem_filter.mp (List.getLast_mem (List.ne_nil_of_mem hpeer))
    exact congrArg some (h p hp _ hlast (by simpa using htied)).symm
  · exact (complete_ofPredicates h n).nodup

end Universe

namespace Twins

def plain : Predicate := ⟨"p",[.root "t" false]⟩

/-- A predicate that differs from the plain one only in the mark of the type. -/
def marked : Predicate := ⟨"p",[.root "t" true]⟩

end Twins

namespace Universe

open Twins in
/-- The repetition of the first predicate comes after the other one and stays. -/
theorem plain_held_twice : plain ∈ [plain,marked] ∧
    (ofPredicates ([plain,marked] ++ [plain]) 1).atoms ≠ (ofPredicates [plain,marked] 1).atoms ∧
    ∃ a, (ofPredicates [plain,marked,plain] 1).get? 0 = some a ∧
      (ofPredicates [plain,marked,plain] 1).get? 2 = some a := by
  have hsorted : arrange [plain,marked,plain] = [plain,marked,plain] := by
    rw [arrange,List.mergeSort_of_pairwise (by decide)]
    decide
  have hatoms : (ofPredicates [plain,marked,plain] 1).atoms =
      [plain,marked,plain].flatMap (atomsOf 1) := congrArg (List.flatMap (atomsOf 1)) hsorted
  refine ⟨by simp,?_,⟨plain,[0],rfl⟩,?_,?_⟩
  · rw [Ne,atoms_append_singleton_eq_iff]
    decide
  all_goals
    rw [get?,hatoms]
    rfl

end Universe
end ClauseDiscovery
