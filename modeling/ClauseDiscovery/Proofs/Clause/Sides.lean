import ClauseDiscovery.Proofs.Clause.Grammar

/-! Atoms on both sides of a clause. The check against the body begins with the second literal of
the head, so a clause has an atom on both sides exactly when its first literal of the head is one
of the body's too; and as that literal, any of the body's that has a variable is admitted. -/
namespace ClauseDiscovery
namespace Clause

variable {c d : Clause} {xs : List Candidate} {x : Candidate}

/-- What the order of the sides and the check against the body amount to, whatever the variables
and their types. -/
structure Sided (c : Clause) : Prop where
  bodyFirst : c.entries.Pairwise fun x y => y.isBody → x.isBody
  twinless : Twinless c.entries

theorem sided_empty : Sided empty := ⟨List.Pairwise.nil,Grammatical.nil.twinless⟩

theorem Sided.extend? (h : Sided c) (hd : c.extend? x = some d) : Sided d := by
  have hx := admits_of_extend? hd
  simp only [admits,Bool.and_eq_true] at hx
  obtain ⟨⟨⟨⟨⟨_,hk⟩,_⟩,hw⟩,_⟩,_⟩ := hx
  have hkeeps : x.isBody → ∀ a ∈ c.entries, a.isBody := by
    intro hxb
    rw [← inBody_iff_of_bodyFirst h.bodyFirst]
    simpa [keepsSides,hxb] using hk
  have havoids := (avoidsBody_iff_of_bodyFirst h.bodyFirst).mp hw
  constructor
  · rw [entries_extend? hd]
    refine List.pairwise_append.mpr ⟨h.bodyFirst,List.pairwise_singleton _ _,?_⟩
    intro a ha y hy hyb
    rw [List.mem_singleton.mp hy] at hyb
    exact hkeeps hyb a ha
  · rw [entries_extend? hd]
    exact (twinless_append_singleton hkeeps).mpr ⟨h.twinless,Or.inr havoids⟩

theorem sided_of_ofCandidates? (h : ofCandidates? xs = some c) : Sided c :=
  invariant_of_ofCandidates? sided_empty (fun _ _ _ => Sided.extend?) h

/-- However a clause is grown, no atom is on both of its sides exactly when the atom of its first
literal of the head is not in the body. -/
theorem sides_disjoint_iff (h : ofCandidates? xs = some c) :
    (∀ b ∈ c.body, ∀ t ∈ c.head, b.atom ≠ t.atom) ↔
      ∀ t ∈ c.head.head?, ∀ b ∈ c.body, b.atom ≠ t.atom := by
  have htail : ∀ t ∈ c.head.tail, ∀ b ∈ c.body, b.atom ≠ t.atom :=
    (sided_of_ofCandidates? h).twinless
  constructor
  · intro hd t ht b hb
    exact hd b hb t (List.mem_of_mem_head? ht)
  · intro hfirst b hb t ht
    cases hh : c.head with
    | nil => simp [hh] at ht
    | cons f ts =>
      rw [hh] at ht hfirst htail
      rcases List.mem_cons.mp ht with rfl | ht
      · exact hfirst t rfl b hb
      · exact htail t ht b hb

theorem sides_disjoint_symmetry : ∃ c, ofCandidates? Edge.symmetry = some c ∧
    (∀ t ∈ c.head.head?, ∀ b ∈ c.body, b.atom ≠ t.atom) ∧
    ∀ b ∈ c.body, ∀ t ∈ c.head, b.atom ≠ t.atom := by
  have hbuilt : ∃ c, ofCandidates? Edge.symmetry = some c := ⟨_,rfl⟩
  obtain ⟨c,hc⟩ := hbuilt
  have hent : c.entries = Edge.symmetry := entries_ofCandidates? hc
  have hfirst : ∀ t ∈ c.head.head?, ∀ b ∈ c.body, b.atom ≠ t.atom := by
    rw [head,body,hent]
    decide
  exact ⟨c,hc,hfirst,(sides_disjoint_iff hc).mpr hfirst⟩

/-- An edge implies itself. -/
theorem sides_not_disjoint_edge :
    ∃ c, ofCandidates? [Edge.on .body 0 1,Edge.on .head 0 1] = some c ∧
      ∃ b ∈ c.body, ∃ t ∈ c.head, b.atom = t.atom :=
  ⟨_,rfl,_,List.mem_singleton_self _,_,List.mem_singleton_self _,rfl⟩

/-- As long as the head is empty, any literal of the body that has a variable is admitted to it. -/
theorem Faithful.admits_twin (h : Faithful c) (hb : ∀ a ∈ c.entries, a.isBody)
    (hx : x ∈ c.entries) (hv : x.atom.vars ≠ []) (i : Nat) :
    c.admits ⟨x.literal.onSide .head,i⟩ := by
  have hvars : ∀ v ∈ x.atom.vars, v ∈ argumentsOf c.entries :=
    fun v hv => mem_argumentsOf.mpr ⟨x,hx,hv⟩
  have hargs : argumentsOf c.entries ++ x.atom.vars ⊆ argumentsOf c.entries :=
    List.append_subset.mpr ⟨List.Subset.refl _,hvars⟩
  have huses : usesOf c.entries ++ x.atom.predicate.uses x.atom.vars ⊆ usesOf c.entries :=
    List.append_subset.mpr ⟨List.Subset.refl _,fun p hp => List.mem_flatMap.mpr ⟨x,hx,hp⟩⟩
  have hs : distinct (argumentsOf c.entries ++ x.atom.vars) < UInt32.size := by
    have hle := distinct_le_of_subset hargs
    rw [← h.toNat_rank] at hle
    exact hle.trans_lt c.rank.toNat_lt
  have hhead : ¬ (⟨x.literal.onSide .head,i⟩ : Candidate).isBody := by
    rw [Candidate.not_isBody_iff]
    rfl
  refine (h.admits_iff (x := ⟨x.literal.onSide .head,i⟩) hs).mpr
    ⟨fun hy => absurd hy hhead,?_,?_,Or.inr hvars,?_,?_,?_⟩
  · intro a ha hside
    have hab := Candidate.isBody_iff.mp (hb a ha)
    rw [hab] at hside
    cases hside
  · exact h.grammatical.numbered.append_of_subset hvars
  · obtain ⟨v,hvx⟩ := List.exists_mem_of_ne_nil _ hv
    exact Or.inr ⟨v,hvx,hvars v hvx⟩
  · exact h.grammatical.typed.subset huses
  · exact Or.inr (Or.inl hb)

end Clause
end ClauseDiscovery
