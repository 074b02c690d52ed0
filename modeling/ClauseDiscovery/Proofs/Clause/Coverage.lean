import ClauseDiscovery.Proofs.Clause.Frontier
import ClauseDiscovery.Proofs.Clause.LeastPart

/-! What the search finds. A class is found exactly when the prefixes of its least clause are
least in their classes. This holds of all clauses that have no predicate of more than two
parameters twice in the body and, beside others in the head, no literal that is in the body too. -/
namespace ClauseDiscovery

variable {u : Universe} {cs xs ys as bs : List Candidate} {x y : Candidate}
  {σ : Equiv.Perm UInt32} {v : UInt32}

theorem Renames.of_perm (h : (cs.map (·.literal.rename σ)).Perm (xs.map (·.literal))) :
    Renames σ cs xs := by
  intro x hx
  obtain ⟨y,hy,he⟩ := List.mem_map.mp (h.symm.subset (List.mem_map_of_mem hx))
  exact ⟨y,hy,he.symm⟩

theorem Renames.perm (h : Renames σ cs xs) (hx : (xs.map (·.literal)).Nodup)
    (hlen : xs.length = cs.length) : (cs.map (·.literal.rename σ)).Perm (xs.map (·.literal)) := by
  have hsub : xs.map (·.literal) ⊆ cs.map (·.literal.rename σ) := by
    intro l hl
    obtain ⟨x,hxs,rfl⟩ := List.mem_map.mp hl
    obtain ⟨y,hy,he⟩ := h x hxs
    exact List.mem_map.mpr ⟨y,hy,he.symm⟩
  exact ((List.Nodup.subperm hx hsub).perm_of_length_le (by simp [hlen])).symm

/-- What makes a class sure to be found: a predicate of more than two parameters occurs once at
most in the body, and a literal of the head that is in the body too is alone in the head. -/
structure Plain (xs : List Candidate) : Prop where
  narrow : ∀ a ∈ xs, ∀ b ∈ xs, a.isBody → b.isBody → a.atom.predicate = b.atom.predicate →
    a.atom ≠ b.atom → b.atom.predicate.arity ≤ 2
  alone : ∀ a ∈ xs, ∀ b ∈ xs, ∀ e ∈ xs, a.isBody → ¬ b.isBody → ¬ e.isBody →
    a.atom = b.atom → e.atom = b.atom

def Alone (xs : List Candidate) : Prop :=
  ∀ a ∈ xs, ∀ b ∈ xs, ∀ e ∈ xs, a.isBody → ¬ b.isBody → ¬ e.isBody → a.atom = b.atom →
    e.atom = b.atom

theorem Plain.subset (h : Plain xs) (hs : ys ⊆ xs) : Plain ys where
  narrow a ha b hb := h.narrow a (hs ha) b (hs hb)
  alone a ha b hb e he := h.alone a (hs ha) b (hs hb) e (hs he)

theorem Renames.exists_source (h : Renames σ cs xs) (hx : x ∈ xs) :
    ∃ y ∈ cs, x.atom = y.atom.rename σ ∧ x.isBody = y.isBody := by
  obtain ⟨y,hy,he⟩ := h x hx
  exact ⟨y,hy,Candidate.atom_eq_rename he,by rw [Candidate.isBody,he]; rfl⟩

theorem Renames.alone (h : Renames σ cs xs) (hc : Alone cs) : Alone xs := by
  intro a ha b hb e he hab hbb heb hat
  obtain ⟨a',ha',hae,has⟩ := h.exists_source ha
  obtain ⟨b',hb',hbe,hbs⟩ := h.exists_source hb
  obtain ⟨e',he',hee,hes⟩ := h.exists_source he
  rw [hae,hbe] at hat
  rw [hee,hbe,hc a' ha' b' hb' e' he' (has ▸ hab) (hbs ▸ hbb) (hes ▸ heb)
    (Atom.rename_injective σ hat)]

theorem Renames.plain (h : Renames σ cs xs) (hc : Plain cs) : Plain xs where
  narrow a ha b hb hab hbb hp hne := by
    obtain ⟨a',ha',hae,has⟩ := h.exists_source ha
    obtain ⟨b',hb',hbe,hbs⟩ := h.exists_source hb
    rw [hae,hbe] at hp hne
    rw [hbe]
    apply hc.narrow a' ha' b' hb' (has ▸ hab) (hbs ▸ hbb) hp
    intro he
    exact hne (by rw [he])
  alone := h.alone hc.alone

theorem Alone.twinless (h : Alone xs) (hnd : (xs.map (·.literal)).Nodup) : Twinless xs := by
  intro k hk b hb he
  have hheads : ((xs.filter (! ·.isBody)).map (·.literal)).Nodup :=
    hnd.sublist (List.filter_sublist.map _)
  obtain ⟨hbx,hbb⟩ := List.mem_filter.mp hb
  cases hfilter : xs.filter (! ·.isBody) with
  | nil => simp [hfilter] at hk
  | cons f fs =>
    rw [hfilter,List.tail_cons] at hk
    have hin : ∀ e ∈ f :: fs, e ∈ xs ∧ ¬ e.isBody := by
      intro e he
      obtain ⟨hex,heb⟩ := List.mem_filter.mp (hfilter ▸ he)
      exact ⟨hex,by simpa using heb⟩
    have hf := hin f (by simp)
    have hk' := hin k (by simp [hk])
    have hfk : f.atom = k.atom := h b hbx k hk'.1 f hf.1 hbb hk'.2 hf.2 he
    have hfs : f.side = k.side :=
      (Candidate.not_isBody_iff.mp hf.2).trans (Candidate.not_isBody_iff.mp hk'.2).symm
    rw [hfilter,List.map_cons,List.nodup_cons] at hheads
    exact hheads.1 (List.mem_map.mpr ⟨k,hk,(Literal.ext_of_eq hfs hfk).symm⟩)

namespace Clause

variable {c d e : Clause} {n : Nat}

theorem Legal.nodup_literals (hu : u.Complete) (hd : Legal u d) : d.literals.Nodup := by
  apply List.pairwise_map.mpr
  apply (hu.faithful hd).grammatical.ascending.imp_of_mem
  intro x y hx hy hasc he
  have hxy := hu.eq_of_literal (hd.mem_candidates x hx) (hd.mem_candidates y hy) he
  subst hxy
  exact Nat.lt_irrefl _ (hasc rfl)

/-- A literal of the head that is legal after a clause, renamed as a variant of the clause is,
is a new literal over the variant's variables. -/
theorem exists_renamed (hu : u.Complete) (hc : Legal u c) (hx : x ∈ u.candidates)
    (hcd : c.extend? x = some d) (hxh : ¬ x.isBody) (he : Legal u e)
    (hσ : (c.literals.map (·.rename σ)).Perm e.literals) :
    ∃ y ∈ u.candidates, y.literal = x.literal.rename σ ∧ y ∉ e.entries ∧
      y.atom.vars ⊆ argumentsOf e.entries := by
  have hd := hc.extend? hx hcd
  have hent := entries_extend? hcd
  have hgd := (hu.faithful hd).grammatical
  rw [hent] at hgd
  have hcont := (Grammatical.append_singleton_iff.mp hgd).2
  have hvars : (x.atom.rename σ).vars ⊆ argumentsOf e.entries := by
    intro v hv
    obtain ⟨w,hw,rfl⟩ := List.mem_map.mp hv
    exact mem_argumentsOf_of_perm hσ (hcont.introduced.resolve_left hxh w hw)
  have hatom : (x.literal.rename σ).atom ∈ u.atoms := by
    refine hu.closed _ (Universe.atom_mem_of_mem_candidates hx) _ rfl fun v hv => ?_
    obtain ⟨z,hz,hvz⟩ := mem_argumentsOf.mp (hvars hv)
    exact hu.bounded _ (Universe.atom_mem_of_mem_candidates (he.mem_candidates z hz)) v hvz
  obtain ⟨y,hy,hyl⟩ := Universe.exists_candidate hatom
  refine ⟨y,hy,hyl,?_,?_⟩
  · intro hye
    have hmem : y.literal ∈ c.literals.map (·.rename σ) := hσ.symm.subset (List.mem_map_of_mem hye)
    obtain ⟨l,hl,hly⟩ := List.mem_map.mp hmem
    have hlx : l = x.literal := Literal.rename_injective σ (hly.trans hyl)
    have hnd := hd.nodup_literals hu
    rw [literals,hent,List.map_append,List.nodup_append] at hnd
    exact hnd.2.2 l hl x.literal (by simp) hlx
  · rwa [Candidate.atom_eq_rename hyl]

theorem perm_of_insert (hd : d.entries = c.entries ++ [x]) (he : e.entries = as ++ bs)
    (hσ : (c.literals.map (·.rename σ)).Perm e.literals) (hy : y.literal = x.literal.rename σ) :
    (d.entries.map (·.literal.rename σ)).Perm ((as ++ y :: bs).map (·.literal)) := by
  have hmap : d.entries.map (·.literal.rename σ) = c.literals.map (·.rename σ) ++ [y.literal] := by
    simp [hd,hy,literals,Function.comp_def]
  have hel : e.literals = as.map (·.literal) ++ bs.map (·.literal) := by
    simp [literals,he]
  rw [hmap,List.map_append,List.map_cons]
  apply (hσ.append_right _).trans
  rw [hel]
  exact (List.perm_append_singleton _ _).trans List.perm_middle.symm

theorem connected_renamed (h : Continues c.entries x)
    (hσ : (c.literals.map (·.rename σ)).Perm e.literals)
    (hvars : (x.atom.rename σ).vars ⊆ argumentsOf e.entries) :
    argumentsOf e.entries = [] ∨ ∃ v ∈ (x.atom.rename σ).vars, v ∈ argumentsOf e.entries := by
  rcases h.connected with hnil | ⟨v,hv,_⟩
  · left
    rw [literals,List.map_map] at hσ
    exact (Renames.of_perm hσ).argumentsOf_eq_nil hnil
  · have hσv : σ v ∈ (x.atom.rename σ).vars := List.mem_map_of_mem hv
    exact Or.inr ⟨σ v,hσv,hvars hσv⟩

/-- To a variant of a clause, a literal of the head can be added as it was to the clause. -/
theorem exists_insert (hu : u.Complete) (hc : Legal u c) (hx : x ∈ u.candidates)
    (hcd : c.extend? x = some d) (hxh : ¬ x.isBody) (ha : Alone d.entries) (he : Legal u e)
    (hσ : (c.literals.map (·.rename σ)).Perm e.literals) :
    ∃ q as y bs, Legal u q ∧ Variant d q ∧ q.entries = as ++ y :: bs ∧ e.entries = as ++ bs ∧
      ∀ b ∈ bs, y.literal.compare b.literal = .lt := by
  have hd := hc.extend? hx hcd
  have hent := entries_extend? hcd
  have hgd := (hu.faithful hd).grammatical
  have hge := (hu.faithful he).grammatical
  obtain ⟨y,hy,hyl,hye,hyv⟩ := exists_renamed hu hc hx hcd hxh he hσ
  have hyh : ¬ y.isBody := by
    rw [Candidate.isBody,hyl]
    exact hxh
  have hside : ∀ z : Candidate, ¬ z.isBody → y.side = z.side := fun z hz =>
    (Candidate.not_isBody_iff.mp hyh).trans (Candidate.not_isBody_iff.mp hz).symm
  obtain ⟨as,bs,hsplit,has,hbs⟩ := hge.exists_place (y := y) fun z hz hzh hidx =>
    hye (Universe.eq_of_index hy (he.mem_candidates z hz) (hside z hzh) hidx.symm ▸ hz)
  have hperm := perm_of_insert hent hsplit hσ hyl
  have hren := Renames.of_perm hperm
  have hnd : ((as ++ y :: bs).map (·.literal)).Nodup := by
    apply hperm.nodup_iff.mp
    have hmap := (hd.nodup_literals hu).map (Literal.rename_injective σ)
    rwa [literals,List.map_map] at hmap
  have hcont : Continues c.entries x := by
    rw [hent] at hgd
    exact (Grammatical.append_singleton_iff.mp hgd).2
  have hya := Candidate.atom_eq_rename hyl
  have hcon := connected_renamed hcont hσ (hya ▸ hyv)
  rw [← hya] at hcon
  rw [hsplit] at hge hyv hcon
  have hq : Grammatical (as ++ y :: bs) := hge.insert hyh has hbs hyv hcon
    (hren.compatible hgd.typed) ((hren.alone ha).twinless hnd)
  have hqu : ∀ z ∈ as ++ y :: bs, z ∈ u.candidates := by
    intro z hz
    rcases List.mem_cons.mp (List.perm_middle.subset hz) with rfl | hz
    · exact hy
    · exact he.mem_candidates z (hsplit ▸ hz)
  obtain ⟨q,hql,hqe⟩ := hu.exists_legal hqu hq
  refine ⟨q,as,y,bs,hql,⟨σ,?_⟩,hqe,hsplit,?_⟩
  · rw [literals,literals,hqe,List.map_map]
    exact hperm
  · intro b hb
    obtain ⟨hbh,hlt⟩ := hbs b hb
    rw [Literal.compare_of_side (by exact hside b hbh)]
    exact (hu.index_lt_iff hy (hqu b (by simp [hb]))).mp hlt

theorem Least.of_extend?_head (hu : u.Complete) (hc : Legal u c) (hx : x ∈ u.candidates)
    (hcd : c.extend? x = some d) (hxh : ¬ x.isBody) (ha : Alone d.entries) (hl : Least u d) :
    Least u c := by
  rintro e he ⟨σ,hσ⟩ hprec
  obtain ⟨q,as,y,bs,hq,hdq,hqe,hee,hlt⟩ := exists_insert hu hc hx hcd hxh ha he hσ
  apply hl q hq hdq
  have hlit : d.literals = c.literals ++ [x.literal] := by simp [literals,entries_extend? hcd]
  rw [hlit,literals,hqe,List.map_append,List.map_cons]
  refine precedes_insert ?_ (by simpa using hlt)
  rwa [← List.map_append,← hee]

theorem Least.leastPart (hu : u.Complete) (hd : Legal u d) (hb : ∀ x ∈ d.entries, x.isBody)
    (hl : Least u d) : LeastPart u d.entries d.entries := by
  have hbody : LegalBody u d.entries :=
    ⟨(hu.faithful hd).grammatical,hd.mem_candidates,hb⟩
  refine ⟨hbody.part (List.prefix_refl _),?_⟩
  intro ys hys hlen
  obtain ⟨e,he,rfl⟩ := hu.exists_legal hys.candidates hys.grammatical
  obtain ⟨σ,hσ⟩ := hys.renames
  refine hl e he ⟨σ,?_⟩
  rw [literals,List.map_map]
  exact hσ.perm (he.nodup_literals hu) hlen

theorem leastAlong_of_leastParts (hu : u.Complete) (h : LeastParts u d.entries d.entries) :
    LeastAlong u d := by
  intro b hb hp e he hbe
  have hlen : e.entries.length = b.entries.length := hbe.length_eq.symm
  obtain ⟨σ,hσ⟩ := hbe
  rw [literals,List.map_map] at hσ
  have hren : Renames σ d.entries e.entries := by
    intro x hx
    obtain ⟨y,hy,hxy⟩ := Renames.of_perm hσ x hx
    exact ⟨y,hp.subset hy,hxy⟩
  have hbody := hren.isBody h.leastPart.isBody
  exact (h b.entries hp).least e.entries
    ⟨⟨(hu.faithful he).grammatical,he.mem_candidates,hbody⟩,σ,hren⟩ hlen

/-- All prefixes of a least clause without a head are least, unless a predicate of more than two
parameters occurs twice. -/
theorem Least.leastAlong_of_isBody (hu : u.Complete) (hd : Legal u d)
    (hb : ∀ x ∈ d.entries, x.isBody) (hnarrow : ∀ a ∈ d.entries, ∀ b ∈ d.entries,
      a.atom.predicate = b.atom.predicate → a.atom ≠ b.atom → b.atom.predicate.arity ≤ 2)
    (hl : Least u d) : LeastAlong u d :=
  leastAlong_of_leastParts hu ((hl.leastPart hu hd hb).leastParts hu hnarrow)

theorem forall_isBody_of_extend? (hu : u.Complete) (hd : Legal u d) (hcd : c.extend? x = some d)
    (hxb : x.isBody) : ∀ y ∈ d.entries, y.isBody := by
  have hbf := (hu.faithful hd).grammatical.bodyFirst
  rw [entries_extend? hcd] at hbf ⊢
  intro y hy
  rcases List.mem_append.mp hy with hy | hy
  · exact (List.pairwise_append.mp hbf).2.2 y hy x (by simp) hxb
  · rwa [List.mem_singleton.mp hy]

/-- All prefixes of a plain clause that is least are least. -/
theorem Least.leastAlong (hu : u.Complete) (hd : Grown u n d) (hp : Plain d.entries)
    (hl : Least u d) : LeastAlong u d := by
  induction hd with
  | empty => exact leastAlong_empty u
  | @extend n c d x hc hx hcd ih =>
    have hd := Legal.extend? ⟨n,hc⟩ hx hcd
    have hent := entries_extend? hcd
    by_cases hxb : x.isBody
    · have hb := forall_isBody_of_extend? hu hd hcd hxb
      refine hl.leastAlong_of_isBody hu hd hb fun a ha b hb' => ?_
      exact hp.narrow a ha b hb' (hb a ha) (hb b hb')
    · have hcp : Plain c.entries := hp.subset fun y hy => by simp [hent,hy]
      have hcl := Least.of_extend?_head hu ⟨n,hc⟩ hx hcd hxb hp.alone hl
      exact (leastAlong_extend? ⟨n,hc⟩ hx hcd).mpr ⟨ih hcp hcl,hl⟩

/-- What the search finds: a class that a clause is grown in is met by the level of the clause's
length exactly when all prefixes of its least clause are least in their classes; all classes of
plain clauses are met. -/
theorem exists_variant_mem_frontier {ps : List Predicate} (h : Predicate.ToldApart ps)
    {bound : UInt32} (hc : Grown (.ofPredicates ps bound) n c) :
    ((∃ e ∈ frontier (.ofPredicates ps bound) n [empty], Variant c e) ↔
      ∀ d, Legal (.ofPredicates ps bound) d → Variant c d → Least (.ofPredicates ps bound) d →
        LeastAlong (.ofPredicates ps bound) d) ∧
    (Plain c.entries → ∃ e ∈ frontier (.ofPredicates ps bound) n [empty], Variant c e) := by
  have hu := Universe.complete_ofPredicates h bound
  have hiff := exists_variant_mem_frontier_iff hu hc
  refine ⟨hiff,fun hp => hiff.mpr ?_⟩
  rintro d ⟨m,hd⟩ ⟨σ,hσ⟩ hl
  rw [literals,List.map_map] at hσ
  exact hl.leastAlong hu hd ((Renames.of_perm hσ).plain hp)

end Clause

namespace Edge

/-- An edge between two vertices is there in both directions, and one of them has a loop. -/
def loop : List Candidate := [on .body 0 1,on .body 1 0,on .head 1 0,on .head 1 1]

/-- The loop with its vertices renamed, which is no legal text. -/
def loopRenamed : List Candidate := [on .body 0 1,on .body 1 0,on .head 0 0,on .head 0 1]

def reversed : List Candidate := [on .body 0 1,on .body 1 0,on .head 0 1]

end Edge

namespace Clause

theorem exists_variant_mem_frontier_edge : Predicate.ToldApart [Edge.edge] ∧
    ∃ c, c.entries = Edge.loop.take 3 ∧ Grown (.ofPredicates [Edge.edge] 2) 3 c ∧
      ∃ e ∈ frontier (.ofPredicates [Edge.edge] 2) 3 [empty], Variant c e := by
  have ht : Predicate.ToldApart [Edge.edge] := by decide
  have hbuilt : ∃ c, ofCandidates? (Edge.loop.take 3) = some c := ⟨_,rfl⟩
  obtain ⟨c,hc⟩ := hbuilt
  have hent : c.entries = Edge.loop.take 3 := entries_ofCandidates? hc
  have hg : Grown (.ofPredicates [Edge.edge] 2) 3 c := by
    refine grown_of_ofCandidates? ?_ hc
    simp only [Edge.mem_candidates_iff]
    decide
  have hp : Plain c.entries := by
    rw [hent]
    exact ⟨by decide,by decide⟩
  exact ⟨ht,c,hent,hg,(exists_variant_mem_frontier ht hg).2 hp⟩

theorem not_legal_loopRenamed {e : Clause} (he : Legal (.ofPredicates [Edge.edge] 2) e)
    (h : (Edge.loopRenamed.map (·.literal)).Perm e.literals) : False := by
  have ht : Predicate.ToldApart [Edge.edge] := by decide
  have hu := Universe.complete_ofPredicates ht 2
  have hin : ∀ x ∈ Edge.loopRenamed, x ∈ (Universe.ofPredicates [Edge.edge] 2).candidates := by
    simp only [Edge.mem_candidates_iff]
    decide
  have hee : Edge.loopRenamed = e.entries := by
    refine Universe.eq_of_perm_of_placeLE hin he.mem_candidates (by decide)
      (hu.faithful he).grammatical.pairwise_placeLE ?_
    exact hu.perm_of_literals hin he.mem_candidates h
  have hsome := (legal_iff.mp he).1
  have hnone : ofCandidates? Edge.loopRenamed = none := by decide
  rw [← hee,hnone] at hsome
  cases hsome

theorem not_least_loop {b : Clause} (hb : ofCandidates? (Edge.loop.take 3) = some b) :
    ¬ Least (.ofPredicates [Edge.edge] 2) b := by
  intro hl
  have hbuilt : ∃ e, ofCandidates? Edge.reversed = some e := ⟨_,rfl⟩
  obtain ⟨e,he⟩ := hbuilt
  have hbe : b.entries = Edge.loop.take 3 := entries_ofCandidates? hb
  have hee : e.entries = Edge.reversed := entries_ofCandidates? he
  refine hl e (Edge.legal_of_ofCandidates? (by decide) he) ⟨Equiv.swap 0 1,?_⟩ ?_
  · rw [literals,literals,hbe,hee]
    exact List.Perm.swap _ _ _
  · rw [literals,literals,hbe,hee]
    decide

/-- Over the edges between two vertices no level has a variant of the loop, which is a legal
clause: its only other renaming is not legal, and its beginning is not least. -/
theorem loop_not_found : ∃ c, c.entries = Edge.loop ∧
    Grown (.ofPredicates [Edge.edge] 2) 4 c ∧
    ∀ e ∈ frontier (.ofPredicates [Edge.edge] 2) 4 [empty], ¬ Variant c e := by
  have ht : Predicate.ToldApart [Edge.edge] := by decide
  have hu := Universe.complete_ofPredicates ht 2
  have hbuilt : ∃ c, ofCandidates? Edge.loop = some c := ⟨_,rfl⟩
  obtain ⟨c,hc⟩ := hbuilt
  have hent : c.entries = Edge.loop := entries_ofCandidates? hc
  have hcl : Legal (.ofPredicates [Edge.edge] 2) c := Edge.legal_of_ofCandidates? (by decide) hc
  refine ⟨c,hent,grown_of_ofCandidates? (hent ▸ hcl.mem_candidates) hc,?_⟩
  rintro e he ⟨σ,hσ⟩
  obtain ⟨heg,hel⟩ := (mem_frontier_iff hu).mp he
  have hlegal : Legal (.ofPredicates [Edge.edge] 2) e := ⟨4,heg⟩
  have hcases := eq_or_eq_of_rename (by rw [hent]; decide) (by rw [hent]; decide) hlegal hσ
  have hmap : c.literals.map (·.rename σ) = [Edge.on .body (σ 0) (σ 1),Edge.on .body (σ 1) (σ 0),
      Edge.on .head (σ 1) (σ 0),Edge.on .head (σ 1) (σ 1)].map (·.literal) := by
    rw [literals,hent]
    rfl
  rw [hmap] at hσ
  rcases hcases with ⟨h0,h1⟩ | ⟨h0,h1⟩
  · rw [h0,h1] at hσ
    have hce : c = e := hcl.eq_of_perm hu hlegal (by rw [literals,hent]; exact hσ)
    subst hce
    have hbuilt : ∃ b, ofCandidates? (Edge.loop.take 3) = some b := ⟨_,rfl⟩
    obtain ⟨b,hb⟩ := hbuilt
    have hp : b.entries <+: c.entries := by
      rw [entries_ofCandidates? hb,hent]
      exact List.take_prefix _ _
    exact not_least_loop hb (hel b (Edge.legal_of_ofCandidates? (by decide) hb) hp)
  · rw [h0,h1] at hσ
    have hlit : (Edge.loopRenamed.map (·.literal)).Perm e.literals := by
      refine List.Perm.trans ?_ hσ
      exact (List.Perm.swap _ _ _).trans (((List.Perm.swap _ _ _).cons _).cons _)
    exact not_legal_loopRenamed hlegal hlit

end Clause
end ClauseDiscovery
