import ClauseDiscovery.Proofs.Clause.Sides
import ClauseDiscovery.Proofs.Typing.Narrowing

/-! Rejection once the head has begun. From then on a clause introduces no variables, so no new
one can be shared; its last sequence number, the atoms to avoid and the types only leave less room.
Hence what it rejects it rejects forever. While the body grows this is not so: a literal that
shares no variable yet may share one later. -/
namespace ClauseDiscovery
namespace Clause

variable {b c d : Clause} {xs ys : List Candidate} {x y : Candidate}

/-- Both clauses have begun their heads, and every check of the second is at least as strict. -/
structure Stricter (c d : Clause) : Prop where
  side_eq : c.side = .head
  side_eq' : d.side = .head
  rank_eq : d.rank = c.rank
  last_le : ∀ j, d.lastIndex? = some j → ∃ i, c.lastIndex? = some i ∧ i ≤ j
  subset : c.entries ⊆ d.entries
  typing_admits : ∀ p vars, d.typing.admits p vars → c.typing.admits p vars

theorem Stricter.refl (h : c.side = .head) : Stricter c c where
  side_eq := h
  side_eq' := h
  rank_eq := rfl
  last_le j hj := ⟨j,hj,le_rfl⟩
  subset := List.Subset.refl _
  typing_admits _ _ := id

theorem side_eq_head_of_admits (h : c.side = .head) (hx : c.admits x) : x.side = .head := by
  simp only [admits,Bool.and_eq_true] at hx
  obtain ⟨⟨⟨⟨⟨_,hk⟩,_⟩,_⟩,_⟩,_⟩ := hx
  rw [← Candidate.not_isBody_iff]
  simpa [keepsSides,inBody,h] using hk

theorem rank_of_extend?_head (hx : x.side = .head) (h : c.extend? x = some d) :
    d.rank = c.rank := by
  have hadm := admits_of_extend? h
  simp only [admits,Bool.and_eq_true] at hadm
  have hold : ∀ v ∈ x.atom.vars, v < c.rank := inOrder_head_iff.mp (hx ▸ hadm.2)
  obtain ⟨e,_,rfl⟩ := eq_of_extend? h
  change rankWith c.rank x.atom = c.rank
  unfold rankWith Atom.max?
  cases hm : x.atom.vars.max? with
  | none => rfl
  | some m =>
    have hlt := UInt32.lt_iff_toNat_lt.mp (hold m (max?_spec hm).1)
    have hsize : c.rank.toNat < UInt32.size := c.rank.toNat_lt
    rw [← UInt32.toNat_inj,UInt32.toNat_max,toNat_add_one (by omega)]
    omega

theorem lastIndex?_of_extend? (hs : x.side = c.side) (h : c.extend? x = some d) :
    d.lastIndex? = some x.index ∧ ∀ i, c.lastIndex? = some i → i < x.index := by
  have hadm := admits_of_extend? h
  simp only [admits,Bool.and_eq_true] at hadm
  obtain ⟨⟨⟨⟨⟨hf,_⟩,_⟩,_⟩,_⟩,_⟩ := hadm
  refine ⟨by simp [lastIndex?,entries_extend? h],fun i hi => ?_⟩
  simpa [followsLast,hs,hi] using hf

theorem exists_lastIndex?_of_side (h : c.side = .head) : ∃ i, c.lastIndex? = some i := by
  unfold side at h
  unfold lastIndex?
  cases hl : c.entries.getLast? with
  | none => simp [hl] at h
  | some z => exact ⟨z.index,rfl⟩

/-- One step leaves less room. -/
theorem Stricter.extend? (h : Stricter c b) (hd : b.extend? y = some d) : Stricter c d := by
  have hy : y.side = .head := side_eq_head_of_admits h.side_eq' (admits_of_extend? hd)
  obtain ⟨hlast,hlt⟩ := lastIndex?_of_extend? (hy.trans h.side_eq'.symm) hd
  obtain ⟨e,he,heq⟩ := eq_of_extend? hd
  constructor
  · exact h.side_eq
  · rw [side_of_extend? hd,hy]
  · rw [rank_of_extend?_head hy hd,h.rank_eq]
  · intro j hj
    obtain rfl : y.index = j := Option.some.inj (hlast.symm.trans hj)
    obtain ⟨k,hk⟩ := exists_lastIndex?_of_side h.side_eq'
    obtain ⟨i,hi,hik⟩ := h.last_le k hk
    exact ⟨i,hi,hik.trans (hlt k hk).le⟩
  · rw [entries_extend? hd]
    exact List.Subset.trans h.subset (List.subset_append_left _ _)
  · intro p vars ha
    rw [heq] at ha
    exact h.typing_admits p vars (Typing.admits_of_useAll he ha)

theorem Stricter.foldlM (h : Stricter c b) (hd : ys.foldlM Clause.extend? b = some d) :
    Stricter c d := by
  induction ys generalizing b with
  | nil =>
    cases hd
    exact h
  | cons y ys ih =>
    rw [List.foldlM_cons] at hd
    obtain ⟨b₁,hb,hd⟩ := Option.bind_eq_some_iff.mp hd
    exact ih (h.extend? hb) hd

theorem Stricter.admits (h : Stricter c d) (hx : d.admits x) : c.admits x := by
  have hxs := side_eq_head_of_admits h.side_eq' hx
  simp only [Clause.admits,Bool.and_eq_true] at hx ⊢
  obtain ⟨⟨⟨⟨⟨hf,hk⟩,ht⟩,hw⟩,hv⟩,ho⟩ := hx
  refine ⟨⟨⟨⟨⟨?_,?_⟩,h.typing_admits _ _ ht⟩,?_⟩,?_⟩,h.rank_eq ▸ ho⟩
  · obtain ⟨j,hj⟩ := exists_lastIndex?_of_side h.side_eq'
    obtain ⟨i,hi,hij⟩ := h.last_le j hj
    have hjx : j < x.index := by simpa [followsLast,hxs,h.side_eq',hj] using hf
    simpa [followsLast,hxs,h.side_eq,hi] using hij.trans_lt hjx
  · simpa [keepsSides,inBody,h.side_eq,h.side_eq'] using hk
  · have hfresh : ∀ a ∈ d.entries, a.literal ≠ x.literal.onSide .body := by
      simpa [avoidsBody,inBody,h.side_eq',contains] using hw
    simpa [avoidsBody,inBody,h.side_eq,contains] using fun a ha => hfresh a (h.subset ha)
  · simpa [sharesVariable,h.rank_eq] using hv

theorem side_eq_head_of_head (hs : Sided c) (h : c.head ≠ []) : c.side = .head := by
  have hbody : ¬ c.inBody := by
    rw [inBody_iff_of_bodyFirst hs.bodyFirst,← filter_head_eq_nil_iff]
    exact h
  cases hc : c.side with
  | body => simp [inBody,hc] at hbody
  | head => rfl

/-- However a clause with a head was grown and however it grows on, it never admits a literal that
it has rejected. -/
theorem rejects_forever (hc : ofCandidates? xs = some c) (hhead : c.head ≠ [])
    (hd : ys.foldlM extend? c = some d) (hx : c.admits x = false) : d.admits x = false := by
  have hstart : Stricter c c := .refl (side_eq_head_of_head (sided_of_ofCandidates? hc) hhead)
  have hlater : Stricter c d := hstart.foldlM hd
  rw [← Bool.not_eq_true] at hx ⊢
  exact fun hdx => hx (hlater.admits hdx)

open Edge in
/-- An edge implies a loop where it begins; the same edge is no second literal of the head, and
neither is it after the edge back. -/
theorem rejects_forever_edge : ∃ c d,
    ofCandidates? [on .body 0 1,on .head 0 0] = some c ∧ c.head ≠ [] ∧
      [on .head 1 0].foldlM extend? c = some d ∧ c.admits (on .head 0 1) = false ∧
        d.admits (on .head 0 1) = false := by
  have hgrown : ∃ c, ofCandidates? [on .body 0 1,on .head 0 0] = some c ∧ c.head ≠ [] ∧
      c.admits (on .head 0 1) = false ∧ ∃ d, [on .head 1 0].foldlM extend? c = some d :=
    ⟨_,rfl,by decide,by decide,_,rfl⟩
  obtain ⟨c,hc,hhead,hx,d,hd⟩ := hgrown
  exact ⟨c,d,hc,hhead,hd,hx,rejects_forever hc hhead hd hx⟩

open Edge in
/-- While the body grows, a loop apart from the rest is rejected until an edge leads to it. -/
example : (ofCandidates? [on .body 0 0]).map (·.admits (on .body 1 1)) = some false ∧
    (ofCandidates? [on .body 0 0,on .body 0 1]).map (·.admits (on .body 1 1)) = some true := by
  decide

end Clause
end ClauseDiscovery
