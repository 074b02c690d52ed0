import ClauseDiscovery.Clause.Search
import ClauseDiscovery.Proofs.Clause.Representative
import Mathlib.Data.List.Nodup

/-! The levels of the search. A level holds the clauses of its length all of whose prefixes are
least in their classes, each once; so no two clauses of a level are variants of each other, and a
class is found exactly when the prefixes of its least clause are least. -/
namespace ClauseDiscovery
namespace Clause

variable {u : Universe} {b c d e : Clause} {x : Candidate} {n : Nat}

theorem frontier_succ (u : Universe) (n : Nat) (cs : List Clause) :
    frontier u (n+1) cs = nextLevel u (frontier u n cs) := by
  induction n generalizing cs with
  | zero => rfl
  | succ n ih => exact ih (nextLevel u cs)

theorem mem_nextLevel {cs : List Clause} : d ∈ nextLevel u cs ↔
    ∃ c ∈ cs, ∃ x ∈ u.candidates, c.extendCanonical? u x = some d := by
  simp [nextLevel,refinements,List.mem_filterMap]

theorem least_empty (u : Universe) : Least u empty := by
  intro e _ _
  simp [literals,empty]

/-- Least in its class, and all its prefixes are least in theirs. -/
def LeastAlong (u : Universe) (d : Clause) : Prop :=
  ∀ c, Legal u c → c.entries <+: d.entries → Least u c

theorem LeastAlong.least (h : LeastAlong u d) (hd : Legal u d) : Least u d :=
  h d hd (List.prefix_refl _)

theorem leastAlong_empty (u : Universe) : LeastAlong u empty := by
  intro c hc hp
  have hnil : c.entries = [] := List.prefix_nil.mp hp
  rw [hc.eq_of_entries ⟨0,.empty⟩ hnil]
  exact least_empty u

theorem leastAlong_extend? (hc : Legal u c) (hx : x ∈ u.candidates) (h : c.extend? x = some d) :
    LeastAlong u d ↔ LeastAlong u c ∧ Least u d := by
  have hd := hc.extend? hx h
  have hent := entries_extend? h
  constructor
  · intro hl
    refine ⟨?_,hl.least hd⟩
    intro b hb hp
    refine hl b hb (hp.trans ?_)
    rw [hent]
    exact List.prefix_append _ _
  · rintro ⟨hl,hdl⟩ b hb hp
    rw [hent,List.prefix_concat_iff] at hp
    rcases hp with hp | hp
    · rwa [hb.eq_of_entries hd (hp.trans hent.symm)]
    · exact hl b hb hp

theorem mem_frontier_iff (hu : u.Complete) :
    d ∈ frontier u n [empty] ↔ Grown u n d ∧ LeastAlong u d := by
  induction n generalizing d with
  | zero =>
    constructor
    · intro h
      obtain rfl : d = empty := List.mem_singleton.mp h
      exact ⟨.empty,leastAlong_empty u⟩
    · rintro ⟨⟨⟩,_⟩
      exact List.mem_singleton.mpr rfl
  | succ n ih =>
    rw [frontier_succ,mem_nextLevel]
    constructor
    · rintro ⟨c,hc,x,hx,hd⟩
      obtain ⟨hg,hl⟩ := ih.mp hc
      obtain ⟨hcd,hdl⟩ := (extendCanonical?_eq_some_iff hu ⟨n,hg⟩ hx).mp hd
      exact ⟨.extend hg hx hcd,(leastAlong_extend? ⟨n,hg⟩ hx hcd).mpr ⟨hl,hdl⟩⟩
    · rintro ⟨hg,hl⟩
      cases hg with
      | @extend _ c _ x hc hx hcd =>
        obtain ⟨hcl,hdl⟩ := (leastAlong_extend? ⟨n,hc⟩ hx hcd).mp hl
        exact ⟨c,ih.mpr ⟨hc,hcl⟩,x,hx,
          (extendCanonical?_eq_some_iff hu ⟨n,hc⟩ hx).mpr ⟨hcd,hdl⟩⟩

theorem nodup_refinements (u : Universe) (c : Clause) : (c.refinements u).Nodup := by
  apply (Universe.nodup_candidates u).filterMap
  intro x y d hx hy
  have hx := entries_extend? (extend?_of_extendCanonical? hx)
  have hy := entries_extend? (extend?_of_extendCanonical? hy)
  simpa using hx.symm.trans hy

theorem eq_of_mem_refinements (hb : Legal u b) (hc : Legal u c) (hdb : d ∈ b.refinements u)
    (hdc : d ∈ c.refinements u) : b = c := by
  obtain ⟨x,_,hx⟩ := List.mem_filterMap.mp hdb
  obtain ⟨y,_,hy⟩ := List.mem_filterMap.mp hdc
  have hx := entries_extend? (extend?_of_extendCanonical? hx)
  have hy := entries_extend? (extend?_of_extendCanonical? hy)
  exact hb.eq_of_entries hc (List.append_inj' (hx.symm.trans hy) rfl).1

theorem nodup_frontier (hu : u.Complete) (n : Nat) : (frontier u n [empty]).Nodup := by
  induction n with
  | zero => exact List.nodup_singleton _
  | succ n ih =>
    rw [frontier_succ]
    refine List.nodup_flatMap.mpr ⟨fun c _ => nodup_refinements u c,?_⟩
    refine List.Pairwise.imp_of_mem ?_ ih
    intro b c hb hc hne d hdb hdc
    have hb : Legal u b := ⟨n,((mem_frontier_iff hu).mp hb).1⟩
    have hc : Legal u c := ⟨n,((mem_frontier_iff hu).mp hc).1⟩
    exact hne (eq_of_mem_refinements hb hc hdb hdc)

/-- No two clauses of a level are variants of each other. -/
theorem pairwise_frontier {ps : List Predicate} (h : Predicate.ToldApart ps) (bound : UInt32)
    (n : Nat) :
    (frontier (.ofPredicates ps bound) n [empty]).Pairwise fun c d => ¬ Variant c d := by
  have hu := Universe.complete_ofPredicates h bound
  refine List.Pairwise.imp_of_mem ?_ (nodup_frontier hu n)
  intro c d hc hd hne hcd
  obtain ⟨hcg,hcl⟩ := (mem_frontier_iff hu).mp hc
  obtain ⟨hdg,hdl⟩ := (mem_frontier_iff hu).mp hd
  have hcl := hcl.least ⟨n,hcg⟩
  have hdl := hdl.least ⟨n,hdg⟩
  exact hne (hcl.eq_of_variant hu ⟨n,hcg⟩ ⟨n,hdg⟩ hdl hcd)

theorem pairwise_frontier_edge : Predicate.ToldApart [Edge.edge] ∧
    (frontier (.ofPredicates [Edge.edge] 2) 4 [empty]).Pairwise fun c d => ¬ Variant c d := by
  have ht : Predicate.ToldApart [Edge.edge] := by decide
  exact ⟨ht,pairwise_frontier ht 2 4⟩

/-- A class is found exactly when all prefixes of its least clause are least in their classes. -/
theorem exists_variant_mem_frontier_iff (hu : u.Complete) (hc : Grown u n c) :
    (∃ e ∈ frontier u n [empty], Variant c e) ↔
      ∀ d, Legal u d → Variant c d → Least u d → LeastAlong u d := by
  constructor
  · rintro ⟨e,he,hce⟩ d hd hcd hdl
    obtain ⟨heg,hel⟩ := (mem_frontier_iff hu).mp he
    have hed := (hel.least ⟨n,heg⟩).eq_of_variant hu ⟨n,heg⟩ hd hdl (hce.symm.trans hcd)
    exact hed ▸ hel
  · intro h
    obtain ⟨d,hd,hcd,hdl⟩ := exists_least_variant ⟨n,hc⟩
    have hlen : d.length = n := by
      rw [← hcd.length_eq]
      exact (grown_iff.mp hc).1
    have hdg : Grown u n d := grown_iff.mpr ⟨hlen,legal_iff.mp hd⟩
    exact ⟨d,(mem_frontier_iff hu).mpr ⟨hdg,h d hd hcd hdl⟩,hcd⟩

end Clause
end ClauseDiscovery
