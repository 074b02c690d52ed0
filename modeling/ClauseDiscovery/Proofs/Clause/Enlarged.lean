import ClauseDiscovery.Proofs.Clause.Level

/-! Larger universes. Whether literals form a legal clause, and whether that clause is least in its
class, is told by the literals; a universe only has to hold their atoms, and then it holds those of
all variants. So more predicates and more variables add clauses to a level, but none without one of
the new predicates or more variables than before. -/
namespace ClauseDiscovery

variable {u w : Universe} {xs ys : List Candidate} {v : UInt32}

theorem twinless_congr (h : ys.map (·.literal) = xs.map (·.literal)) :
    Twinless ys ↔ Twinless xs := by
  have hl : ∀ zs, Twinless zs ↔ ∀ t ∈ ((zs.map (·.literal)).filter (! ·.isBody)).tail,
      ∀ b ∈ (zs.map (·.literal)).filter (·.isBody), b.atom ≠ t.atom := by
    intro zs
    rw [List.filter_map,List.filter_map,← List.map_tail]
    simp only [List.forall_mem_map]
    rfl
  rw [hl,h,← hl]

theorem Along.of_literals {P : List Candidate → Candidate → Prop} (h : Along P xs)
    (he : ys.map (·.literal) = xs.map (·.literal))
    (hP : ∀ as bs x y, bs.map (·.literal) = as.map (·.literal) → y.literal = x.literal →
      P as x → P bs y) : Along P ys := by
  rintro bs y cs rfl
  rw [List.map_append,List.map_cons,eq_comm,List.map_eq_append_iff] at he
  obtain ⟨as,ds,rfl,has,hds⟩ := he
  obtain ⟨x,es,rfl,hx,_⟩ := List.map_eq_cons_iff.mp hds
  exact hP as bs x y has.symm hx.symm (h as x es rfl)

theorem Grammatical.of_literals (h : Grammatical xs)
    (he : ys.map (·.literal) = xs.map (·.literal))
    (ha : ys.Pairwise fun x y => x.side = y.side → x.index < y.index) : Grammatical ys where
  bodyFirst := by
    have hb : (xs.map (·.literal)).Pairwise fun l m => m.isBody → l.isBody :=
      List.pairwise_map.mpr h.bodyFirst
    exact List.pairwise_map.mp (he ▸ hb)
  ascending := ha
  numbered := argumentsOf_congr he ▸ h.numbered
  introduced := h.introduced.of_literals he fun as bs x y hab hxy hx => by
    rwa [argumentsOf_congr hab,Candidate.isBody,Candidate.atom,hxy]
  connected := h.connected.of_literals he fun as bs x y hab hxy hx => by
    rwa [argumentsOf_congr hab,Candidate.atom,hxy]
  typed := usesOf_congr he ▸ h.typed
  twinless := (twinless_congr he).mpr h.twinless

theorem Universe.Complete.ascending_iff (hu : u.Complete) (hx : ∀ x ∈ xs, x ∈ u.candidates) :
    (xs.Pairwise fun x y => x.side = y.side → x.index < y.index) ↔
      (xs.map (·.literal)).Pairwise fun l m => l.side = m.side → l.atom.compare m.atom = .lt := by
  rw [List.pairwise_map]
  refine ⟨List.Pairwise.imp_of_mem ?_,List.Pairwise.imp_of_mem ?_⟩
  · intro x y hxm hym hlt hs
    exact (hu.index_lt_iff (hx x hxm) (hx y hym)).mp (hlt hs)
  · intro x y hxm hym hlt hs
    exact (hu.index_lt_iff (hx x hxm) (hx y hym)).mpr (hlt hs)

namespace Clause

variable {b c d e : Clause} {n : Nat}

/-- A legal clause has a counterpart over every universe that holds its atoms. -/
theorem Legal.exists_counterpart (hu : u.Complete) (hw : w.Complete) (hc : Legal u c)
    (hin : ∀ l ∈ c.literals, l.atom ∈ w.atoms) : ∃ d, Legal w d ∧ d.literals = c.literals := by
  obtain ⟨ys,hys,hyw⟩ := exists_candidates hin
  have hgc := (hu.faithful hc).grammatical
  have hasc : ys.Pairwise fun x y => x.side = y.side → x.index < y.index := by
    rw [hw.ascending_iff hyw,hys]
    exact (hu.ascending_iff hc.mem_candidates).mp hgc.ascending
  obtain ⟨d,hd,rfl⟩ := hw.exists_legal hyw (hgc.of_literals hys hasc)
  exact ⟨d,hd,hys⟩

theorem Legal.atom_mem_of_variant (hu : u.Complete) (hw : w.Complete) (hc : Legal u c)
    (h : d.literals = c.literals) (he : Legal w e) (hde : Variant d e) :
    ∀ l ∈ e.literals, l.atom ∈ u.atoms := by
  have hrank : distinct (argumentsOf e.entries) = distinct (argumentsOf c.entries) := by
    rw [← argumentsOf_congr h]
    exact Nat.le_antisymm hde.symm.distinct_le hde.distinct_le
  intro l hl
  obtain ⟨y,hy,rfl⟩ := List.mem_map.mp hl
  obtain ⟨σ,hσ⟩ := hde
  obtain ⟨k,hk,hky⟩ := List.mem_map.mp (hσ.symm.subset hl)
  obtain ⟨x,hx,rfl⟩ := List.mem_map.mp (h ▸ hk)
  refine hu.closed x.atom (Universe.atom_mem_of_mem_candidates (hc.mem_candidates x hx)) _ ?_ ?_
  · rw [← hky]
    rfl
  · intro v hv
    have hN := (hw.faithful he).grammatical.numbered
    have hlt := hN.mem_iff.mp (mem_argumentsOf.mpr ⟨y,hy,hv⟩)
    rw [hrank] at hlt
    exact UInt32.lt_iff_toNat_lt.mpr (hlt.trans_le (hu.distinct_le hc.mem_candidates))

theorem variant_congr (hc : d.literals = c.literals) (he : e.literals = b.literals) :
    Variant d e ↔ Variant c b := by
  rw [Variant,Variant,hc,he]

theorem Least.counterpart (hu : u.Complete) (hw : w.Complete) (hc : Legal u c)
    (h : d.literals = c.literals) (hl : Least u c) : Least w d := by
  intro e he hde hp
  obtain ⟨b,hb,hbe⟩ := he.exists_counterpart hw hu (hc.atom_mem_of_variant hu hw h he hde)
  rw [h,← hbe] at hp
  exact hl b hb ((variant_congr h hbe.symm).mp hde) hp

theorem Legal.isPrefix_of_literals (hu : u.Complete) (hb : Legal u b) (hc : Legal u c)
    (h : b.literals <+: c.literals) : b.entries <+: c.entries := by
  have hplace : b.literals.filterMap u.place? <+: c.literals.filterMap u.place? :=
    h.filterMap u.place?
  rwa [literals,literals,hu.filterMap_place? hb.mem_candidates,
    hu.filterMap_place? hc.mem_candidates] at hplace

theorem LeastAlong.counterpart (hu : u.Complete) (hw : w.Complete) (hc : Legal u c)
    (h : d.literals = c.literals) (hl : LeastAlong u c) : LeastAlong w d := by
  intro e he hp
  have hlit : e.literals <+: c.literals := by
    rw [← h]
    exact hp.map _
  have hin : ∀ l ∈ e.literals, l.atom ∈ u.atoms := by
    intro l hle
    obtain ⟨x,hx,rfl⟩ := List.mem_map.mp (hlit.subset hle)
    exact Universe.atom_mem_of_mem_candidates (hc.mem_candidates x hx)
  obtain ⟨b,hb,hbe⟩ := he.exists_counterpart hw hu hin
  have hbc : b.entries <+: c.entries := hb.isPrefix_of_literals hu hc (hbe ▸ hlit)
  exact (hl b hb hbc).counterpart hu hw hb hbe.symm

theorem exists_counterpart_mem_frontier (hu : u.Complete) (hw : w.Complete)
    (hc : c ∈ frontier u n [empty]) (hin : ∀ l ∈ c.literals, l.atom ∈ w.atoms) :
    ∃ d ∈ frontier w n [empty], d.literals = c.literals := by
  obtain ⟨hg,hl⟩ := (mem_frontier_iff hu).mp hc
  obtain ⟨d,hd,h⟩ := Legal.exists_counterpart hu hw ⟨n,hg⟩ hin
  have hlen : d.length = n := by
    have hlits : d.literals.length = c.literals.length := by rw [h]
    rw [← (grown_iff.mp hg).1]
    simpa [literals,length] using hlits
  refine ⟨d,(mem_frontier_iff hw).mpr ⟨grown_iff.mpr ⟨hlen,legal_iff.mp hd⟩,?_⟩,h⟩
  exact hl.counterpart hu hw ⟨n,hg⟩ h

theorem literal_atom_mem_of_mem_frontier (hu : u.Complete) (hc : c ∈ frontier u n [empty]) :
    ∀ l ∈ c.literals, l.atom ∈ u.atoms := by
  intro l hl
  obtain ⟨x,hx,rfl⟩ := List.mem_map.mp hl
  have hlegal : Legal u c := ⟨n,((mem_frontier_iff hu).mp hc).1⟩
  exact Universe.atom_mem_of_mem_candidates (hlegal.mem_candidates x hx)

/-- A level over a universe has the texts of the level over a larger one whose atoms it holds. -/
theorem mem_literals_frontier_iff (hu : u.Complete) (hw : w.Complete) (hsub : u.atoms ⊆ w.atoms)
    {ls : List Literal} : (∃ c ∈ frontier u n [empty], c.literals = ls) ↔
      ∃ d ∈ frontier w n [empty], (∀ l ∈ d.literals, l.atom ∈ u.atoms) ∧ d.literals = ls := by
  constructor
  · rintro ⟨c,hc,rfl⟩
    have hin := literal_atom_mem_of_mem_frontier hu hc
    obtain ⟨d,hd,h⟩ := exists_counterpart_mem_frontier hu hw hc fun l hl => hsub (hin l hl)
    exact ⟨d,hd,h ▸ hin,h⟩
  · rintro ⟨d,hd,hin,rfl⟩
    exact exists_counterpart_mem_frontier hw hu hd hin

/-- All predicates are among the given ones, and the variables are no more than the bound. -/
def within (ps : List Predicate) (bound : UInt32) (c : Clause) : Bool :=
  c.entries.all (fun x => ps.contains x.atom.predicate) && decide (c.rank ≤ bound)

theorem Faithful.within_iff (hc : Faithful c) {ps : List Predicate} {bound : UInt32} :
    c.within ps bound ↔ ∀ l ∈ c.literals, l.atom ∈ (Universe.ofPredicates ps bound).atoms := by
  have hrank : c.rank ≤ bound ↔ ∀ v ∈ argumentsOf c.entries, v < bound := by
    simp only [hc.mem_argumentsOf_iff]
    constructor
    · intro hle v hv
      exact UInt32.lt_of_lt_of_le hv hle
    · intro hall
      have hlt : ∀ v ∈ argumentsOf c.entries, v < bound := fun v hv =>
        hall v (hc.mem_argumentsOf_iff.mp hv)
      rw [UInt32.le_iff_toNat_le,hc.toNat_rank]
      exact distinct_le_of_forall_lt hlt
  simp only [within,Bool.and_eq_true,List.all_eq_true,decide_eq_true_eq,hrank,literals,
    List.forall_mem_map,Universe.mem_ofPredicates,List.contains_iff_mem,mem_argumentsOf]
  constructor
  · rintro ⟨hp,hv⟩ x hx
    exact ⟨hp x hx,fun v hvx => hv v ⟨x,hx,hvx⟩⟩
  · intro hall
    refine ⟨fun x hx => (hall x hx).1,?_⟩
    rintro v ⟨x,hx,hvx⟩
    exact (hall x hx).2 v hvx

/-- Over more predicates and more variables, a level has the same clauses in the same order, but
for those with one of the new predicates or with more variables than before. -/
theorem frontier_sameLiterals_filter {ps qs : List Predicate} (hps : ps ⊆ qs)
    (h : Predicate.ToldApart qs) {m k : UInt32} (hmk : m ≤ k) (n : Nat) :
    List.Forall₂ (fun c d => c.sameLiterals d) (frontier (.ofPredicates ps m) n [empty])
      ((frontier (.ofPredicates qs k) n [empty]).filter (·.within ps m)) := by
  have hu := Universe.complete_ofPredicates
    (fun p hp q hq => h p (hps hp) q (hps hq) : Predicate.ToldApart ps) m
  have hw := Universe.complete_ofPredicates h k
  have hsub : (Universe.ofPredicates ps m).atoms ⊆ (Universe.ofPredicates qs k).atoms := by
    intro a ha
    obtain ⟨hp,hv⟩ := Universe.mem_ofPredicates.mp ha
    exact Universe.mem_ofPredicates.mpr ⟨hps hp,fun v hva => UInt32.lt_of_lt_of_le (hv v hva) hmk⟩
  have hlits : (frontier (.ofPredicates ps m) n [empty]).map literals =
      ((frontier (.ofPredicates qs k) n [empty]).filter (·.within ps m)).map literals := by
    -- both lists ascend, so they are equal when they have the same members
    refine List.Pairwise.eq_of_mem_iff (r := ComesBefore)
      (List.pairwise_map.mpr (pairwise_comesBefore_frontier hu n))
      (List.pairwise_map.mpr ((pairwise_comesBefore_frontier hw n).filter _)) fun ls => ?_
    rw [List.mem_map,List.mem_map,mem_literals_frontier_iff hu hw hsub]
    simp only [List.mem_filter,and_assoc]
    refine exists_congr fun d => and_congr_right fun hd => and_congr_left' ?_
    exact (hw.faithful ⟨n,((mem_frontier_iff hw).mp hd).1⟩).within_iff.symm
  have hequal : List.Forall₂ (· = ·) ((frontier (.ofPredicates ps m) n [empty]).map literals)
      (((frontier (.ofPredicates qs k) n [empty]).filter (·.within ps m)).map literals) := by
    rw [List.forall₂_eq_eq_eq]
    exact hlits
  rw [List.forall₂_map_left_iff,List.forall₂_map_right_iff] at hequal
  exact hequal.imp fun c d he => by simpa [sameLiterals] using he

end Clause

namespace Edge

def mark : Predicate := ⟨"mark",[vertex]⟩

end Edge

namespace Clause

/-- Marks and a third vertex do not change what is found about the edges between two. -/
theorem frontier_sameLiterals_filter_edge : [Edge.edge] ⊆ [Edge.mark,Edge.edge] ∧
    Predicate.ToldApart [Edge.mark,Edge.edge] ∧ (2 : UInt32) ≤ 3 ∧
    List.Forall₂ (fun c d => c.sameLiterals d) (frontier (.ofPredicates [Edge.edge] 2) 3 [empty])
      ((frontier (.ofPredicates [Edge.mark,Edge.edge] 3) 3 [empty]).filter
        (·.within [Edge.edge] 2)) := by
  have hps : [Edge.edge] ⊆ [Edge.mark,Edge.edge] := by simp
  have ht : Predicate.ToldApart [Edge.mark,Edge.edge] := by decide
  have hmk : (2 : UInt32) ≤ 3 := by decide
  exact ⟨hps,ht,hmk,frontier_sameLiterals_filter hps ht hmk 3⟩

end Clause
end ClauseDiscovery
