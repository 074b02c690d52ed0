import ClauseDiscovery.Proofs.Clause.Coverage

/-! Canonical clauses without their last literal. A literal of the head can be put into every
variant of the clause before it, unless an atom is on both sides; and the body of a canonical clause
begins with canonical bodies, if no predicate has more than two parameters. So the search reaches
such a clause from a canonical one. -/
namespace ClauseDiscovery
namespace Clause

variable {u : Universe} {c d : Clause} {x : Candidate}

/-- A legal clause that is least in its class. -/
structure Canonical (u : Universe) (d : Clause) : Prop where
  legal : Legal u d
  least : Least u d

/-- A legal clause with literals is the extension of a legal one by its last literal. -/
theorem Legal.exists_parent (hd : Legal u d) (hne : d ≠ empty) :
    ∃ c x, Legal u c ∧ x ∈ u.candidates ∧ c.extend? x = some d := by
  obtain ⟨n,hn⟩ := hd
  cases hn with
  | empty => exact absurd rfl hne
  | @extend n c _ x hc hx hcd => exact ⟨c,x,⟨n,hc⟩,hx,hcd⟩

theorem alone_of_disjoint (h : ∀ b ∈ d.body, ∀ t ∈ d.head, b.atom ≠ t.atom) : Alone d.entries := by
  intro b hb t ht _ _ hbb htb _ he
  have hbody : b ∈ d.body := List.mem_filter.mpr ⟨hb,hbb⟩
  have hhead : t ∈ d.head := List.mem_filter.mpr ⟨ht,by simpa using htb⟩
  exact absurd he (h b hbody t hhead)

theorem Canonical.least_parent_of_head (hu : u.Complete) (hd : Canonical u d) (hc : Legal u c)
    (hx : x ∈ u.candidates) (hcd : c.extend? x = some d) (hside : d.side = .head)
    (hdisj : ∀ b ∈ d.body, ∀ t ∈ d.head, b.atom ≠ t.atom) : Least u c := by
  have hxh : ¬ x.isBody := by
    rw [Candidate.not_isBody_iff,← side_of_extend? hcd]
    exact hside
  exact Least.of_extend?_head hu hc hx hcd hxh (alone_of_disjoint hdisj) hd.least

theorem Canonical.least_parent_of_body (hu : u.Complete) (hd : Canonical u d) (hc : Legal u c)
    (hcd : c.extend? x = some d) (hhead : d.head = [])
    (harity : ∀ p ∈ u.predicates, p.arity ≤ 2) : Least u c := by
  have hb : ∀ y ∈ d.entries, y.isBody := filter_head_eq_nil_iff.mp hhead
  have halong : LeastAlong u d := by
    refine hd.least.leastAlong_of_isBody hu hd.legal hb fun a _ b hb' _ _ => ?_
    exact harity _ (Universe.predicate_mem (hd.legal.mem_candidates b hb'))
  refine halong c hc ?_
  rw [entries_extend? hcd]
  exact List.prefix_append _ _

/-- Without its last literal a canonical clause is canonical, and has it among its refinements, if
the literal is in the head and no atom is on both sides, or if there is no head and no predicate of
the universe has more than two parameters. -/
theorem canonical_dropLast {ps : List Predicate} (h : Predicate.ToldApart ps) {bound : UInt32}
    (hd : Canonical (.ofPredicates ps bound) d) (hne : d ≠ empty)
    (hlast : (d.side = .head ∧ ∀ b ∈ d.body, ∀ t ∈ d.head, b.atom ≠ t.atom) ∨
      (d.head = [] ∧ ∀ p ∈ (Universe.ofPredicates ps bound).predicates, p.arity ≤ 2)) :
    ∃ c, c.entries = d.entries.dropLast ∧ Canonical (.ofPredicates ps bound) c ∧
      d ∈ c.refinements (.ofPredicates ps bound) := by
  have hu := Universe.complete_ofPredicates h bound
  obtain ⟨c,x,hc,hx,hcd⟩ := hd.legal.exists_parent hne
  have hcl : Least (.ofPredicates ps bound) c := by
    rcases hlast with ⟨hside,hdisj⟩ | ⟨hhead,harity⟩
    · exact hd.least_parent_of_head hu hc hx hcd hside hdisj
    · exact hd.least_parent_of_body hu hc hcd hhead harity
  refine ⟨c,by simp [entries_extend? hcd],⟨hc,hcl⟩,List.mem_filterMap.mpr ⟨x,hx,?_⟩⟩
  exact (extendCanonical?_eq_some_iff hu hc hx).mpr ⟨hcd,hd.least⟩

end Clause

namespace Edge

/-- An edge, and in the head the one back. -/
def reply : List Candidate := [on .body 0 1,on .head 1 0]

end Edge

namespace Clause

theorem canonical_reply (hd : ofCandidates? Edge.reply = some d) :
    Canonical (.ofPredicates [Edge.edge] 2) d := by
  have ht : Predicate.ToldApart [Edge.edge] := by decide
  have hu := Universe.complete_ofPredicates ht 2
  have hent : d.entries = Edge.reply := entries_ofCandidates? hd
  have hl : Legal (.ofPredicates [Edge.edge] 2) d := Edge.legal_of_ofCandidates? (by decide) hd
  refine ⟨hl,(isLeastRenaming_iff hu hl).mp ?_⟩
  have hrank : d.rank.toNat = 2 := by
    rw [(hu.faithful hl).toNat_rank,hent]
    decide
  have hys : (Universe.ofPredicates [Edge.edge] 2).rename? (permuting [1,0]) d.entries =
      some [Edge.on .body 1 0,Edge.on .head 0 1] := by
    refine hu.rename?_eq_some_iff.mpr ⟨by rw [hent]; decide,?_⟩
    simp only [Edge.mem_candidates_iff]
    decide
  have hnone : permuted? (.ofPredicates [Edge.edge] 2) d [1,0] = none := by
    rw [permuted?,hys]
    rw [Option.bind_eq_bind,Option.bind_some,List.mergeSort_of_pairwise (by decide)]
    decide
  have hperms : Permutation.allButIdentity 2
      (fun π => d.withstands (permuted? (.ofPredicates [Edge.edge] 2) d π)) =
      (d.withstands (permuted? (.ofPredicates [Edge.edge] 2) d [1,0]) && true) := rfl
  rw [isLeastRenaming,hrank,hperms,hnone]
  rfl

theorem canonical_dropLast_reply : Predicate.ToldApart [Edge.edge] ∧
    ∃ d, d.entries = Edge.reply ∧ Canonical (.ofPredicates [Edge.edge] 2) d ∧ d ≠ empty ∧
      d.side = .head ∧ (∀ b ∈ d.body, ∀ t ∈ d.head, b.atom ≠ t.atom) ∧
      ∃ c, c.entries = [Edge.on .body 0 1] ∧ Canonical (.ofPredicates [Edge.edge] 2) c ∧
        d ∈ c.refinements (.ofPredicates [Edge.edge] 2) := by
  have ht : Predicate.ToldApart [Edge.edge] := by decide
  obtain ⟨d,hd,hne⟩ : ∃ d, ofCandidates? Edge.reply = some d ∧ d ≠ empty := ⟨_,rfl,by decide⟩
  have hent : d.entries = Edge.reply := entries_ofCandidates? hd
  have hcan := canonical_reply hd
  have hside : d.side = .head := by
    rw [side,hent]
    rfl
  have hdisj : ∀ b ∈ d.body, ∀ t ∈ d.head, b.atom ≠ t.atom := by
    rw [body,head,hent]
    decide
  obtain ⟨c,hc,hcc,hdc⟩ := canonical_dropLast ht hcan hne (Or.inl ⟨hside,hdisj⟩)
  refine ⟨ht,d,hent,hcan,hne,hside,hdisj,c,?_,hcc,hdc⟩
  rw [hc,hent]
  rfl

end Clause
end ClauseDiscovery
