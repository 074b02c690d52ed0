import ClauseDiscovery.Proofs.Clause.Renumbering
import ClauseDiscovery.Proofs.Clause.Representative

/-! Parts of a body. A part is a legal body whose literals are some of the body's under one
renaming; a literal of the body that is still missing extends a part as soon as it is larger than
all of its literals and connected to them. -/
namespace ClauseDiscovery

variable {u : Universe} {cs xs ys : List Candidate} {x y z : Candidate} {σ : Equiv.Perm UInt32}

/-- Each literal is one of the clause's, renamed. -/
def Renames (σ : Equiv.Perm UInt32) (cs xs : List Candidate) : Prop :=
  ∀ x ∈ xs, ∃ y ∈ cs, x.literal = y.literal.rename σ

theorem Candidate.atom_eq_rename (h : x.literal = y.literal.rename σ) :
    x.atom = y.atom.rename σ := congrArg Literal.atom h

theorem Predicate.mem_uses_map {p : Predicate} {f : UInt32 → UInt32} {vars : List UInt32}
    {v : UInt32} {τ : Ty} : (v,τ) ∈ p.uses (vars.map f) ↔ ∃ w, f w = v ∧ (w,τ) ∈ p.uses vars := by
  simp only [Predicate.uses,List.zip_map_left,List.mem_map,Prod.exists,Prod.map_apply,id_eq,
    Prod.mk.injEq]
  constructor
  · rintro ⟨w,ρ,hm,rfl,rfl⟩
    exact ⟨w,rfl,hm⟩
  · rintro ⟨w,rfl,hm⟩
    exact ⟨w,τ,hm,rfl,rfl⟩

namespace Renames

theorem self (cs : List Candidate) : Renames (.refl _) cs cs := by
  intro x hx
  exact ⟨x,hx,by simp [Equiv.coe_refl]⟩

theorem subset (h : Renames σ cs xs) (hs : ys ⊆ xs) : Renames σ cs ys := fun y hy => h y (hs hy)

theorem mem_usesOf (h : Renames σ cs xs) {v : UInt32} {τ : Ty} (hv : (v,τ) ∈ usesOf xs) :
    ∃ w, σ w = v ∧ (w,τ) ∈ usesOf cs := by
  obtain ⟨x,hx,hv⟩ := List.mem_flatMap.mp hv
  obtain ⟨y,hy,he⟩ := h x hx
  have hv : (v,τ) ∈ y.atom.predicate.uses (y.atom.vars.map σ) := by
    simpa [Candidate.atom,he] using hv
  obtain ⟨w,hw,hm⟩ := Predicate.mem_uses_map.mp hv
  exact ⟨w,hw,List.mem_flatMap.mpr ⟨y,hy,hm⟩⟩

theorem compatible (h : Renames σ cs xs) (hc : Compatible (usesOf cs)) :
    Compatible (usesOf xs) := by
  intro v ρ τ hρ hτ
  obtain ⟨a,ha,hρ⟩ := h.mem_usesOf hρ
  obtain ⟨b,hb,hτ⟩ := h.mem_usesOf hτ
  have hab : a = b := σ.injective (ha.trans hb.symm)
  exact hc b ρ τ (hab ▸ hρ) hτ

theorem symm_mem_argumentsOf (h : Renames σ cs xs) {v : UInt32} (hv : v ∈ argumentsOf xs) :
    σ.symm v ∈ argumentsOf cs := by
  obtain ⟨x,hx,hv⟩ := mem_argumentsOf.mp hv
  obtain ⟨y,hy,he⟩ := h x hx
  have hv : v ∈ y.atom.vars.map σ := by simpa [Candidate.atom,he] using hv
  obtain ⟨w,hw,rfl⟩ := List.mem_map.mp hv
  rw [Equiv.symm_apply_apply]
  exact mem_argumentsOf.mpr ⟨y,hy,hw⟩

theorem argumentsOf_eq_nil (h : Renames σ cs xs) (hc : argumentsOf cs = []) :
    argumentsOf xs = [] := by
  rw [List.eq_nil_iff_forall_not_mem]
  intro v hv
  simpa [hc] using h.symm_mem_argumentsOf hv

theorem distinct_le (h : Renames σ cs xs) :
    distinct (argumentsOf xs) ≤ distinct (argumentsOf cs) :=
  distinct_le_of_injective σ.symm.injective fun _ hv => h.symm_mem_argumentsOf hv

theorem isBody (h : Renames σ cs xs) (hb : ∀ y ∈ cs, y.isBody) : ∀ x ∈ xs, x.isBody := by
  intro x hx
  obtain ⟨y,hy,he⟩ := h x hx
  have hyb := hb y hy
  simpa [Candidate.isBody,he,Literal.isBody] using hyb

end Renames

/-- A legal text over the universe without a head. -/
structure LegalBody (u : Universe) (xs : List Candidate) : Prop where
  grammatical : Grammatical xs
  candidates : ∀ x ∈ xs, x ∈ u.candidates
  isBody : ∀ x ∈ xs, x.isBody

/-- A legal body whose literals are some of the given ones under one renaming. -/
structure Part (u : Universe) (cs xs : List Candidate) : Prop extends LegalBody u xs where
  renames : ∃ σ, Renames σ cs xs

theorem LegalBody.of_append (h : LegalBody u (xs ++ ys)) : LegalBody u xs where
  grammatical := h.grammatical.of_append
  candidates x hx := h.candidates x (List.mem_append_left _ hx)
  isBody x hx := h.isBody x (List.mem_append_left _ hx)

theorem LegalBody.side_eq (h : LegalBody u xs) (hx : x ∈ xs) : x.side = .body :=
  Candidate.isBody_iff.mp (h.isBody x hx)

theorem LegalBody.ascending (hu : u.Complete) (h : LegalBody u xs) :
    xs.Pairwise (·.literal.compare ·.literal = .lt) := by
  refine List.Pairwise.imp_of_mem ?_ h.grammatical.ascending
  intro x y hx hy hlt
  have hs : x.side = y.side := (h.side_eq hx).trans (h.side_eq hy).symm
  rw [Literal.compare_of_side hs]
  exact (hu.index_lt_iff (h.candidates x hx) (h.candidates y hy)).mp (hlt hs)

theorem LegalBody.part (h : LegalBody u cs) (hp : xs <+: cs) : Part u cs xs := by
  obtain ⟨ys,rfl⟩ := hp
  exact ⟨h.of_append,_,(Renames.self _).subset (List.subset_append_left _ _)⟩

theorem Part.of_append (h : Part u cs (xs ++ ys)) : Part u cs xs := by
  obtain ⟨σ,hσ⟩ := h.renames
  exact ⟨h.toLegalBody.of_append,σ,hσ.subset (List.subset_append_left _ _)⟩

theorem Renames.append_singleton (h : Renames σ cs xs) {τ : Equiv.Perm UInt32}
    (hfix : ∀ v ∈ argumentsOf xs, τ v = v) (hz : z ∈ cs)
    (hy : y.literal = (z.literal.rename σ).rename τ) : Renames (σ.trans τ) cs (xs ++ [y]) := by
  intro x hx
  rcases List.mem_append.mp hx with hx | hx
  · obtain ⟨w,hw,he⟩ := h x hx
    have hid : x.literal.rename τ = x.literal.rename id := Literal.rename_congr fun v hv =>
      hfix v (mem_argumentsOf.mpr ⟨x,hx,hv⟩)
    rw [Literal.rename_id,he,Literal.rename_rename] at hid
    exact ⟨w,hw,he.trans hid.symm⟩
  · rw [List.mem_singleton.mp hx,hy]
    exact ⟨z,hz,Literal.rename_rename _ _ _⟩

theorem LegalBody.exists_renumbered (hu : u.Complete) (hc : LegalBody u cs)
    (hσ : Renames σ cs xs) {τ : Equiv.Perm UInt32} (hfix : ∀ v ∈ argumentsOf xs, τ v = v)
    (hnum : Numbered (argumentsOf xs ++ (z.atom.rename σ).vars.map τ)) (hz : z ∈ cs) :
    ∃ y ∈ u.candidates, y.literal = (z.literal.rename σ).rename τ := by
  refine Universe.exists_candidate (hu.closed z.atom ?_ _ rfl fun v hv => ?_)
  · exact Universe.atom_mem_of_mem_candidates (hc.candidates z hz)
  · have hren := hσ.append_singleton hfix hz (y := ⟨(z.literal.rename σ).rename τ,0⟩) rfl
    have hd := hren.distinct_le.trans (hu.distinct_le hc.candidates)
    rw [argumentsOf_append,argumentsOf_singleton] at hd
    have hv := hnum.mem_iff.mp (List.mem_append_right _ hv)
    exact UInt32.lt_iff_toNat_lt.mpr (hv.trans_le hd)

theorem LegalBody.append_singleton (hx : LegalBody u xs) (hy : y ∈ u.candidates)
    (hyb : y.isBody) (h : Continues xs y) : LegalBody u (xs ++ [y]) where
  grammatical := Grammatical.append_singleton_iff.mpr ⟨hx.grammatical,h⟩
  candidates x hm := by
    rcases List.mem_append.mp hm with hm | hm
    · exact hx.candidates x hm
    · rwa [List.mem_singleton.mp hm]
  isBody x hm := by
    rcases List.mem_append.mp hm with hm | hm
    · exact hx.isBody x hm
    · rwa [List.mem_singleton.mp hm]

/-- A literal of the body that is larger than a part and connected to it, with its new variables
renumbered, extends the part. -/
theorem LegalBody.exists_part_append (hu : u.Complete) (hc : LegalBody u cs)
    (hx : LegalBody u xs) (hσ : Renames σ cs xs) (hz : z ∈ cs)
    (hlt : ∀ x ∈ xs, x.literal.compare (z.literal.rename σ) = .lt)
    (hcon : argumentsOf xs = [] ∨ ∃ v ∈ (z.atom.rename σ).vars, v ∈ argumentsOf xs) :
    ∃ y, Part u cs (xs ++ [y]) ∧ (y.literal.compare (z.literal.rename σ)).isLE := by
  have hN := hx.grammatical.numbered
  obtain ⟨τ,hfix,hnum,hle⟩ := hN.exists_renumbering (z.atom.rename σ).vars
  obtain ⟨y,hy,hyl⟩ := hc.exists_renumbered hu hσ hfix hnum hz
  have hren := hσ.append_singleton hfix hz hyl
  have hyb : y.isBody := hren.isBody hc.isBody y (by simp)
  have hys : y.side = z.side := (Candidate.isBody_iff.mp hyb).trans (hc.side_eq hz).symm
  have hpred : y.atom.predicate = z.atom.predicate := by rw [Candidate.atom,hyl]; rfl
  have hvars : y.atom.vars = (z.atom.rename σ).vars.map τ := by rw [Candidate.atom,hyl]; rfl
  refine ⟨y,⟨hx.append_singleton hy hyb ?_,_,hren⟩,?_⟩
  · refine ⟨fun _ => hx.isBody,?_,?_,Or.inl hyb,?_,?_,Or.inl hyb⟩
    · intro x hxs _
      have hside : x.side = z.side := (hx.side_eq hxs).trans (hc.side_eq hz).symm
      have hxz := hlt x hxs
      rw [Literal.compare_of_side (by exact hside),Atom.compare_eq_lt_iff] at hxz
      rw [hu.index_lt_iff (hx.candidates x hxs) hy,Atom.compare_eq_lt_iff,hpred,hvars]
      refine hxz.imp_right (And.imp_right fun hv => ?_)
      exact hN.compare_map_eq_lt hfix (fun v hv => mem_argumentsOf.mpr ⟨x,hxs,hv⟩) hv
    · rwa [hvars]
    · apply hcon.imp_right
      rintro ⟨v,hv,hvx⟩
      refine ⟨v,?_,hvx⟩
      rw [hvars,← hfix v hvx]
      exact List.mem_map_of_mem hv
    · have hcomp := hren.compatible hc.grammatical.typed
      rwa [usesOf_append,usesOf_singleton] at hcomp
  · rw [Literal.compare_of_side (by exact hys),Atom.compare,Ordering.isLE_then_iff_and]
    change (y.atom.predicate.compare z.atom.predicate).isLE ∧ _
    rw [hpred,Predicate.compare_self]
    refine ⟨rfl,Or.inr ?_⟩
    change (compare y.atom.vars _).isLE
    rwa [hvars]

end ClauseDiscovery
