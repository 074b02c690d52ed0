import ClauseDiscovery.Proofs.Clause.Grammar

/-! Literals put into the head of a legal text. All variables occur in the body, so a literal of
the head over the variables of the text is legal at the place of its sequence number, as far as
types and the literals of the body allow. -/
namespace ClauseDiscovery

variable {xs ys as bs : List Candidate} {x y : Candidate} {v : UInt32}

theorem exists_first {α : Type*} {p : α → Prop} {l : List α} (h : ∃ a ∈ l, p a) :
    ∃ as a bs, l = as ++ a :: bs ∧ p a ∧ ∀ b ∈ as, ¬ p b := by
  classical
  obtain ⟨a,ha,hpa⟩ := h
  have hsome : (l.find? (p ·)).isSome := List.find?_isSome.mpr ⟨a,ha,by simpa using hpa⟩
  obtain ⟨b,hb⟩ := Option.isSome_iff_exists.mp hsome
  obtain ⟨hpb,as,bs,hl,has⟩ := List.find?_eq_some_iff_append.mp hb
  exact ⟨as,b,bs,hl,by simpa using hpb,fun c hc => by simpa using has c hc⟩

theorem Grammatical.exists_body (h : Grammatical xs) (hv : v ∈ argumentsOf xs) :
    ∃ b ∈ xs, b.isBody ∧ v ∈ b.atom.vars := by
  induction xs using List.reverseRecOn with
  | nil => simp at hv
  | append_singleton xs x ih =>
    obtain ⟨hxs,hx⟩ := Grammatical.append_singleton_iff.mp h
    have hold : v ∈ argumentsOf xs → ∃ b ∈ xs ++ [x], b.isBody ∧ v ∈ b.atom.vars := by
      intro hm
      obtain ⟨b,hb,hbv⟩ := ih hxs hm
      exact ⟨b,by simp [hb],hbv⟩
    rw [argumentsOf_append,argumentsOf_singleton] at hv
    rcases List.mem_append.mp hv with hv | hv
    · exact hold hv
    · rcases hx.introduced with hb | hi
      · exact ⟨x,by simp,hb,hv⟩
      · exact hold (hi v hv)

/-- A literal of the head has a place in the text. -/
theorem Grammatical.exists_place (h : Grammatical xs)
    (hne : ∀ x ∈ xs, ¬ x.isBody → x.index ≠ y.index) :
    ∃ as bs, xs = as ++ bs ∧ (∀ a ∈ as, a.isBody ∨ a.index < y.index) ∧
      ∀ b ∈ bs, ¬ b.isBody ∧ y.index < b.index := by
  by_cases hlater : ∃ b ∈ xs, ¬ b.isBody ∧ y.index < b.index
  · obtain ⟨as,b,bs,rfl,hb,has⟩ := exists_first hlater
    refine ⟨as,b :: bs,rfl,?_,?_⟩
    · intro a ha
      by_cases hab : a.isBody
      · exact Or.inl hab
      · have hle : ¬ y.index < a.index := fun hlt => has a ha ⟨hab,hlt⟩
        have := hne a (by simp [ha]) hab
        exact Or.inr (by omega)
    · intro k hk
      rcases List.mem_cons.mp hk with rfl | hk
      · exact hb
      · have hbf := (List.pairwise_cons.mp (List.pairwise_append.mp h.bodyFirst).2.1).1 k hk
        have hasc := (List.pairwise_cons.mp (List.pairwise_append.mp h.ascending).2.1).1 k hk
        have hkb : ¬ k.isBody := fun hkb => hb.1 (hbf hkb)
        have hside : b.side = k.side :=
          (Candidate.not_isBody_iff.mp hb.1).trans (Candidate.not_isBody_iff.mp hkb).symm
        exact ⟨hkb,hb.2.trans (hasc hside)⟩
  · refine ⟨xs,[],by simp,?_,by simp⟩
    intro a ha
    by_cases hab : a.isBody
    · exact Or.inl hab
    · have hle : ¬ y.index < a.index := fun hlt => hlater ⟨a,ha,hab,hlt⟩
      have := hne a ha hab
      exact Or.inr (by omega)

section Head

variable (h : Grammatical (as ++ bs)) (hbs : ∀ b ∈ bs, ¬ b.isBody)
include h hbs

theorem Grammatical.argumentsOf_subset : argumentsOf (as ++ bs) ⊆ argumentsOf as := by
  intro v hv
  obtain ⟨b,hm,hb,hbv⟩ := h.exists_body hv
  rcases List.mem_append.mp hm with hm | hm
  · exact mem_argumentsOf.mpr ⟨b,hm,hbv⟩
  · exact absurd hb (hbs b hm)

theorem Grammatical.connected_of_head :
    ∀ b ∈ bs, argumentsOf as = [] ∨ ∃ v ∈ b.atom.vars, v ∈ argumentsOf as := by
  intro b hb
  obtain ⟨bs₁,bs₂,he⟩ := List.append_of_mem hb
  rcases h.connected (as ++ bs₁) b bs₂ (by simp [he]) with hnil | ⟨v,hvb,hv⟩
  · rw [argumentsOf_append] at hnil
    exact Or.inl (List.append_eq_nil_iff.mp hnil).1
  · refine Or.inr ⟨v,hvb,h.argumentsOf_subset hbs ?_⟩
    rw [he,← List.singleton_append,← List.append_assoc,← List.append_assoc,argumentsOf_append,
      argumentsOf_append]
    exact List.mem_append_left _ (List.mem_append_left _ hv)

end Head

/-- Literals of the head over the variables of a text can follow it in any order of their
sequence numbers, as far as types and the body's literals allow. -/
theorem Grammatical.append (h : Grammatical xs) (hhead : ∀ y ∈ ys, ¬ y.isBody)
    (hasc : (xs ++ ys).Pairwise fun x y => x.side = y.side → x.index < y.index)
    (hold : ∀ y ∈ ys, y.atom.vars ⊆ argumentsOf xs)
    (hcon : ∀ y ∈ ys, argumentsOf xs = [] ∨ ∃ v ∈ y.atom.vars, v ∈ argumentsOf xs)
    (htyped : Compatible (usesOf (xs ++ ys))) (htwin : Twinless (xs ++ ys)) :
    Grammatical (xs ++ ys) := by
  have hsub : argumentsOf ys ⊆ argumentsOf xs := by
    intro v hv
    obtain ⟨y,hy,hvy⟩ := mem_argumentsOf.mp hv
    exact hold y hy hvy
  refine ⟨?_,hasc,?_,?_,?_,htyped,htwin⟩
  · refine List.pairwise_append.mpr ⟨h.bodyFirst,?_,?_⟩
    · exact List.pairwise_of_forall_mem_list fun _ _ y hy hyb => absurd hyb (hhead y hy)
    · intro _ _ y hy hyb
      exact absurd hyb (hhead y hy)
  · rw [argumentsOf_append]
    exact h.numbered.append_of_subset hsub
  · refine h.introduced.append fun as y bs he => Or.inr fun v hv => ?_
    rw [argumentsOf_append]
    exact List.mem_append_left _ (hold y (by simp [he]) hv)
  · refine h.connected.append fun as y bs he => ?_
    rcases hcon y (by simp [he]) with hnil | ⟨v,hvy,hv⟩
    · left
      rw [argumentsOf_append,hnil,List.nil_append,argumentsOf,List.flatMap_eq_nil_iff]
      intro b hb
      exact List.eq_nil_of_subset_nil (hnil ▸ hold b (by simp [he,hb]))
    · exact Or.inr ⟨v,hvy,by simp [hv]⟩

/-- At its place, a literal of the head over the variables of the text is legal as far as types
and the body's literals allow. -/
theorem Grammatical.insert (h : Grammatical (as ++ bs)) (hy : ¬ y.isBody)
    (has : ∀ a ∈ as, a.isBody ∨ a.index < y.index)
    (hbs : ∀ b ∈ bs, ¬ b.isBody ∧ y.index < b.index)
    (hvars : y.atom.vars ⊆ argumentsOf (as ++ bs))
    (hcon : argumentsOf (as ++ bs) = [] ∨ ∃ v ∈ y.atom.vars, v ∈ argumentsOf (as ++ bs))
    (htyped : Compatible (usesOf (as ++ y :: bs))) (htwin : Twinless (as ++ y :: bs)) :
    Grammatical (as ++ y :: bs) := by
  have hhead : ∀ b ∈ bs, ¬ b.isBody := fun b hb => (hbs b hb).1
  have hsub := h.argumentsOf_subset hhead
  refine h.of_append.append ?_ ?_ ?_ ?_ htyped htwin
  · exact List.forall_mem_cons.mpr ⟨hy,hhead⟩
  · have hasc := List.pairwise_append.mp h.ascending
    refine List.pairwise_append.mpr ⟨hasc.1,?_,?_⟩
    · exact List.pairwise_cons.mpr ⟨fun b hb _ => (hbs b hb).2,hasc.2.1⟩
    · intro a ha b hb hs
      rcases List.mem_cons.mp hb with rfl | hb
      · refine (has a ha).resolve_left fun hab => hy ?_
        exact Candidate.isBody_iff.mpr (hs ▸ Candidate.isBody_iff.mp hab)
      · exact hasc.2.2 a ha b hb hs
  · refine List.forall_mem_cons.mpr ⟨fun v hv => hsub (hvars hv),fun b hb v hv => hsub ?_⟩
    exact mem_argumentsOf.mpr ⟨b,by simp [hb],hv⟩
  · refine List.forall_mem_cons.mpr ⟨?_,h.connected_of_head hhead⟩
    rcases hcon with hnil | ⟨v,hvy,hv⟩
    · rw [argumentsOf_append] at hnil
      exact Or.inl (List.append_eq_nil_iff.mp hnil).1
    · exact Or.inr ⟨v,hvy,hsub hv⟩

end ClauseDiscovery
