import ClauseDiscovery.Proofs.Clause.Representative

/-! The two passes of the search for a smaller variant. Every insertion can be looked up once its
variables are renamed by first occurrence, and what it leads to is a variant that some permutation
leads to as well; so the pass through the permutations decides alone. -/
namespace ClauseDiscovery

variable {u : Universe} {xs : List Candidate} {x : Candidate} {v : UInt32}

theorem toNat_numbering_lt {order : List UInt32} (hn : order.length ≤ UInt32.size)
    (hv : v ∈ order) : (numbering order v).toNat < order.length := by
  obtain ⟨i,hi⟩ := Option.isSome_iff_exists.mp (List.isSome_idxOf?.mpr hv)
  have hlt : i < order.length := (List.idxOf?_eq_some_iff.mp hi).1
  have he : numbering order v = i.toUInt32 := by simp [numbering,hi]
  rw [he,toNat_toUInt32 (hlt.trans_le hn)]
  exact hlt

/-- Candidates renamed by first occurrence have atoms of the universe, since they have no more
variables than it allows. -/
theorem Universe.Complete.exists_rename?_numbering (hu : u.Complete)
    (hx : ∀ x ∈ xs, x ∈ u.candidates) :
    ∃ ys, u.rename? (numbering (variablesOf xs)) xs = some ys := by
  have hin : ∀ l ∈ xs.map (·.literal.rename (numbering (variablesOf xs))), l.atom ∈ u.atoms := by
    intro l hl
    obtain ⟨y,hy,rfl⟩ := List.mem_map.mp hl
    refine hu.closed y.atom (Universe.atom_mem_of_mem_candidates (hx y hy)) _ rfl fun w hw => ?_
    obtain ⟨v,hv,rfl⟩ := List.mem_map.mp hw
    have hmem : v ∈ variablesOf xs := List.mem_eraseDups.mpr (mem_argumentsOf.mpr ⟨y,hy,hv⟩)
    have hlt := toNat_numbering_lt (distinct_le_size (argumentsOf xs)) hmem
    exact UInt32.lt_iff_toNat_lt.mpr (hlt.trans_le (hu.distinct_le hx))
  obtain ⟨ys,hys,hyc⟩ := exists_candidates hin
  exact ⟨ys,hu.rename?_eq_some_iff.mpr ⟨hys,hyc⟩⟩

namespace Clause

variable {c d : Clause} {i : Nat}

/-- What an insertion rejects, a permutation rejects. -/
theorem isLeastRenaming_of_insertion (hu : u.Complete) (hc : Legal u c) (hx : x ∈ u.candidates)
    (hcd : c.extend? x = some d) (hi : i < c.length)
    (h : d.withstands (reordered? u (c.entries.insertIdx i x)) = false) :
    d.isLeastRenaming u = false := by
  have hd := hc.extend? hx hcd
  rw [← Bool.not_eq_true,isLeastRenaming_iff hu hd]
  intro hl
  have hall := isLeastInsertion_of_least hu hd hcd hl
  have hwith := List.all_eq_true.mp hall i (List.mem_range.mpr hi)
  rw [h] at hwith
  cases hwith

/-- The search without the insertions accepts the same. -/
theorem extendCanonical?_eq_filter (hu : u.Complete) (hc : Legal u c) (hx : x ∈ u.candidates) :
    c.extendCanonical? u x = (c.extend? x).filter (·.isLeastRenaming u) := by
  unfold extendCanonical?
  cases hcd : c.extend? x with
  | none => rfl
  | some d =>
    have hd := hc.extend? hx hcd
    have hpass : (isLeastInsertion u c d x && d.isLeastRenaming u) = d.isLeastRenaming u := by
      cases hl : d.isLeastRenaming u with
      | false => exact Bool.and_false _
      | true =>
        rw [isLeastInsertion_of_least hu hd hcd ((isLeastRenaming_iff hu hd).mp hl)]
        rfl
    simp only [Option.filter_some,hpass]

/-- Over the universe of predicates that the order tells apart, every insertion into a legal clause
can be looked up once it is renamed; if one of them leads to a smaller clause, so does a
permutation of the variables; and without the insertions the same clauses are accepted. -/
theorem permutations_decide {ps : List Predicate} (h : Predicate.ToldApart ps) (n : UInt32)
    (hc : Legal (.ofPredicates ps n) c) (hx : x ∈ (Universe.ofPredicates ps n).candidates) :
    (∀ d, c.extend? x = some d → ∀ i < c.length,
      (∃ ys, (Universe.ofPredicates ps n).rename?
        (numbering (variablesOf (c.entries.insertIdx i x))) (c.entries.insertIdx i x) = some ys) ∧
      (d.withstands (reordered? (.ofPredicates ps n) (c.entries.insertIdx i x)) = false →
        d.isLeastRenaming (.ofPredicates ps n) = false)) ∧
    c.extendCanonical? (.ofPredicates ps n) x =
      (c.extend? x).filter (·.isLeastRenaming (.ofPredicates ps n)) := by
  have hu := Universe.complete_ofPredicates h n
  refine ⟨fun d hcd i hi => ⟨hu.exists_rename?_numbering fun y hy => ?_,?_⟩,?_⟩
  · have hi : i ≤ c.entries.length := hi.le
    rcases List.mem_cons.mp ((List.perm_insertIdx x c.entries hi).subset hy) with rfl | hy
    · exact hx
    · exact hc.mem_candidates y hy
  · exact isLeastRenaming_of_insertion hu hc hx hcd hi
  · exact extendCanonical?_eq_filter hu hc hx

/-- A loop at the end of an edge: with the loop in front, the vertices are numbered the other way,
and the clause is smaller. -/
theorem permutations_decide_edge : Predicate.ToldApart [Edge.edge] ∧ ∃ c d,
    c.entries = [Edge.on .body 0 1] ∧ Legal (.ofPredicates [Edge.edge] 2) c ∧
    Edge.on .body 1 1 ∈ (Universe.ofPredicates [Edge.edge] 2).candidates ∧
    c.extend? (Edge.on .body 1 1) = some d ∧
    d.withstands (reordered? (.ofPredicates [Edge.edge] 2)
      (c.entries.insertIdx 0 (Edge.on .body 1 1))) = false ∧
    d.isLeastRenaming (.ofPredicates [Edge.edge] 2) = false ∧
    c.extendCanonical? (.ofPredicates [Edge.edge] 2) (Edge.on .body 1 1) = none := by
  have ht : Predicate.ToldApart [Edge.edge] := by decide
  have hu := Universe.complete_ofPredicates ht 2
  obtain ⟨c,hc⟩ : ∃ c, ofCandidates? [Edge.on .body 0 1] = some c := ⟨_,rfl⟩
  obtain ⟨d,hd⟩ : ∃ d, ofCandidates? ([Edge.on .body 0 1] ++ [Edge.on .body 1 1]) = some d :=
    ⟨_,rfl⟩
  obtain ⟨e,he⟩ : ∃ e, ofCandidates? [Edge.on .body 0 0,Edge.on .body 1 0] = some e := ⟨_,rfl⟩
  have hl : Legal (.ofPredicates [Edge.edge] 2) c := by
    refine legal_of_ofCandidates? ?_ hc
    simp only [Edge.mem_candidates_iff]
    decide
  have hx : Edge.on .body 1 1 ∈ (Universe.ofPredicates [Edge.edge] 2).candidates := by
    simp only [Edge.mem_candidates_iff]
    decide
  obtain ⟨b,hb,hcd⟩ := ofCandidates?_append_singleton.mp hd
  obtain rfl : c = b := Option.some.inj (hc.symm.trans hb)
  have hent : c.entries = [Edge.on .body 0 1] := entries_ofCandidates? hc
  have hfront : reordered? (.ofPredicates [Edge.edge] 2)
      [Edge.on .body 1 1,Edge.on .body 0 1] = some e := by
    refine Option.bind_eq_some_iff.mpr ⟨[Edge.on .body 0 0,Edge.on .body 1 0],?_,?_⟩
    · refine hu.rename?_eq_some_iff.mpr ⟨by decide,?_⟩
      simp only [Edge.mem_candidates_iff]
      decide
    · rw [List.mergeSort_of_pairwise (by decide)]
      exact he
  have hrejects : d.withstands (reordered? (.ofPredicates [Edge.edge] 2)
      (c.entries.insertIdx 0 (Edge.on .body 1 1))) = false := by
    have hsmaller : precedes e.literals d.literals := by
      rw [literals,literals,entries_ofCandidates? he,entries_ofCandidates? hd]
      decide
    rw [hent]
    simpa [hfront,withstands] using hsmaller
  obtain ⟨hinsertions,hpass⟩ := permutations_decide ht 2 hl hx
  have hlength : 0 < c.length := by simp [length,hent]
  have hleast := (hinsertions d hcd 0 hlength).2 hrejects
  refine ⟨ht,c,d,hent,hl,hx,hcd,hrejects,hleast,?_⟩
  rw [hpass,hcd,Option.filter_some,hleast]
  rfl

end Clause
end ClauseDiscovery
