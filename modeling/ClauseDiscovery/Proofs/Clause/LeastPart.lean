import ClauseDiscovery.Proofs.Clause.Insertion
import ClauseDiscovery.Proofs.Clause.Part

/-! Least parts of a body. A part that is least with all its prefixes misses no literal that is
smaller than one of its own and could be connected to it; so, unless a predicate of more than two
parameters occurs twice, it can be extended until it has all literals of the body. Therefore the
prefixes of the least arrangement of a body are least as well. -/
namespace ClauseDiscovery

variable {u : Universe} {cs xs ys as bs : List Candidate} {a b w x y z : Candidate}
  {σ : Equiv.Perm UInt32}

/-- A part that no part of its length is smaller than. -/
structure LeastPart (u : Universe) (cs xs : List Candidate) : Prop extends Part u cs xs where
  least : ∀ ys, Part u cs ys → ys.length = xs.length →
    ¬ precedes (ys.map (·.literal)) (xs.map (·.literal))

/-- A part that is least, as are all its prefixes. -/
def LeastParts (u : Universe) (cs xs : List Candidate) : Prop :=
  ∀ as, as <+: xs → LeastPart u cs as

theorem prefix_of_pairwise {α : Type*} {r : α → α → Prop} (hirrefl : ∀ a, ¬ r a a)
    (hasymm : ∀ a b, r a b → ¬ r b a) {as xs : List α} (has : as.Pairwise r)
    (hxs : xs.Pairwise r) (hsub : as ⊆ xs) (hrest : ∀ x ∈ xs, x ∈ as ∨ ∀ a ∈ as, r a x) :
    as <+: xs := by
  induction as generalizing xs with
  | nil => exact List.nil_prefix
  | cons a as ih =>
    cases xs with
    | nil => simp at hsub
    | cons x xs =>
      obtain ⟨haas,has'⟩ := List.pairwise_cons.mp has
      obtain ⟨hxxs,hxs'⟩ := List.pairwise_cons.mp hxs
      have hax : a = x := by
        rcases List.mem_cons.mp (hsub (List.mem_cons_self (a := a))) with h | h
        · exact h
        · have hxa := hxxs a h
          rcases hrest x (by simp) with hm | hm
          · rcases List.mem_cons.mp hm with hm | hm
            · exact hm.symm
            · exact absurd (haas x hm) (hasymm x a hxa)
          · exact absurd (hm a (by simp)) (hasymm x a hxa)
      subst hax
      refine List.cons_prefix_cons.mpr ⟨rfl,ih has' hxs' ?_ ?_⟩
      · intro b hb
        apply (List.mem_cons.mp (hsub (List.mem_cons_of_mem _ hb))).resolve_left
        rintro rfl
        exact hirrefl b (haas b hb)
      · intro y hy
        refine (hrest y (by simp [hy])).imp ?_ fun h b hb => h b (by simp [hb])
        intro hm
        apply (List.mem_cons.mp hm).resolve_left
        rintro rfl
        exact hirrefl y (hxxs y hy)

theorem Atom.rename_injective (σ : Equiv.Perm UInt32) :
    Function.Injective fun a : Atom => a.rename σ := by
  intro a b h
  have hback := congrArg (·.rename σ.symm) h
  simpa [Equiv.symm_comp_self] using hback

namespace Literal

theorem rename_of_vars_eq_nil {l : Literal} (h : l.atom.vars = []) (f : UInt32 → UInt32) :
    l.rename f = l := ext_of_eq rfl (Atom.ext_of_eq rfl (by simp [h]))

theorem compare_rename {l : Literal} (h : l.atom.vars = []) (m : Literal) (f : UInt32 → UInt32) :
    l.compare (m.rename f) = l.compare m := by
  unfold Literal.compare
  rw [rename_atom,Atom.rename_predicate,rename_side,Atom.rename_vars,h]
  cases m.atom.vars <;> rfl

theorem compare_eq_lt_of_constant {k l m : Literal} (hk : k.atom.vars = [])
    (hkl : k.compare l = .lt) (hside : k.side = l.side) (hs : l.side = m.side)
    (hp : l.atom.predicate = m.atom.predicate) (hm : m.atom.vars ≠ []) : k.compare m = .lt := by
  rw [compare_of_side hside,Atom.compare_eq_lt_iff,hp] at hkl
  rw [compare_of_side (hside.trans hs),Atom.compare_eq_lt_iff]
  refine hkl.imp_right (And.imp_right fun _ => ?_)
  obtain ⟨v,vs,hvs⟩ := List.exists_cons_of_ne_nil hm
  rw [hk,hvs]
  rfl

theorem rename_injective (σ : Equiv.Perm UInt32) :
    Function.Injective fun l : Literal => l.rename σ := by
  intro l m h
  have hback := congrArg (·.rename σ.symm) h
  simpa [Equiv.symm_comp_self] using hback

end Literal

theorem LegalBody.nodup_literals (hu : u.Complete) (h : LegalBody u xs) :
    (xs.map (·.literal)).Nodup := by
  refine List.pairwise_map.mpr ((h.ascending hu).imp ?_)
  intro x y hlt he
  simp [he] at hlt

namespace LeastPart

/-- A least part does not end in a literal that a smaller one could stand for. -/
theorem lt_of_ne (hu : u.Complete) (hc : LegalBody u cs) (h : LeastPart u cs (xs ++ [x]))
    (hσ : Renames σ cs xs) (hz : z ∈ cs) (hne : x.literal ≠ z.literal.rename σ)
    (hlt : ∀ a ∈ xs, a.literal.compare (z.literal.rename σ) = .lt)
    (hcon : argumentsOf xs = [] ∨ ∃ v ∈ (z.atom.rename σ).vars, v ∈ argumentsOf xs) :
    x.literal.compare (z.literal.rename σ) = .lt := by
  obtain ⟨y,hy,hyz⟩ := hc.exists_part_append hu h.toLegalBody.of_append hσ hz hlt hcon
  have hyx : ¬ y.literal.compare x.literal = .lt := by
    intro hyx
    apply h.least _ hy (by simp)
    simp [precedes_cons_iff,hyx]
  have hxy : (x.literal.compare y.literal).isLE := by
    by_contra hn
    exact hyx (Std.OrientedCmp.lt_of_not_isLE hn)
  have hxz : (x.literal.compare (z.literal.rename σ)).isLE := Std.TransCmp.isLE_trans hxy hyz
  rcases Ordering.isLE_iff_eq_lt_or_eq_eq.mp hxz with hlt | heq
  · exact hlt
  · have hxu := Universe.predicate_mem (h.candidates x (by simp))
    have hzu := Universe.predicate_mem (hc.candidates z hz)
    exact absurd (hu.eq_of_compare hxu (m := z.literal.rename σ) hzu heq) hne

end LeastPart

namespace LeastParts

theorem leastPart (h : LeastParts u cs xs) : LeastPart u cs xs := h xs (List.prefix_refl _)

theorem of_append (h : LeastParts u cs (xs ++ ys)) : LeastParts u cs xs :=
  fun as has => h as (has.trans (List.prefix_append _ _))

theorem forall_lt (hu : u.Complete) (hc : LegalBody u cs) (h : LeastParts u cs (xs ++ ys))
    (hσ : Renames σ cs (xs ++ ys)) (hz : z ∈ cs)
    (hne : ∀ x ∈ xs ++ ys, x.literal ≠ z.literal.rename σ)
    (hlt : ∀ x ∈ xs, x.literal.compare (z.literal.rename σ) = .lt)
    (hcon : ∃ v ∈ (z.atom.rename σ).vars, v ∈ argumentsOf xs) :
    ∀ x ∈ xs ++ ys, x.literal.compare (z.literal.rename σ) = .lt := by
  induction ys generalizing xs with
  | nil => simpa using hlt
  | cons y ys ih =>
    rw [List.append_cons] at h hσ hne ⊢
    have hy : y.literal.compare (z.literal.rename σ) = .lt := by
      refine h.of_append.leastPart.lt_of_ne hu hc ?_ hz (hne y (by simp)) hlt (Or.inr hcon)
      exact hσ.subset fun x hx => by simp [hx]
    refine ih h hσ hne ?_ ?_
    · intro x hx
      rcases List.mem_append.mp hx with hx | hx
      · exact hlt x hx
      · rwa [List.mem_singleton.mp hx]
    · obtain ⟨v,hv,hvx⟩ := hcon
      exact ⟨v,hv,by simp [hvx]⟩

theorem lt_of_shares (hu : u.Complete) (hc : LegalBody u cs) (h : LeastParts u cs (xs ++ [x]))
    (hσ : Renames σ cs (xs ++ [x])) (hz : z ∈ cs) (hne : x.literal ≠ z.literal.rename σ)
    (hle : (x.atom.predicate.compare z.atom.predicate).isLE)
    (harity : x.atom.predicate = z.atom.predicate → z.atom.predicate.arity ≤ 2)
    (hfirst : ∀ v ∈ (z.atom.rename σ).vars, v ∉ argumentsOf xs)
    (hshare : ∃ v ∈ x.atom.vars, v ∈ (z.atom.rename σ).vars) :
    x.literal.compare (z.literal.rename σ) = .lt := by
  have hx := h.leastPart.toLegalBody
  have hxs : x.side = z.side := (hx.side_eq (by simp)).trans (hc.side_eq hz).symm
  have hxu := Universe.predicate_mem (hx.candidates x (by simp))
  have hzu := Universe.predicate_mem (hc.candidates z hz)
  rcases Ordering.isLE_iff_eq_lt_or_eq_eq.mp hle with hlt | heq
  · rw [Literal.compare_of_side (by exact hxs),Atom.compare_eq_lt_iff]
    exact Or.inl hlt
  · have hp : x.atom.predicate = z.atom.predicate := hu.toldApart _ hxu _ hzu heq
    have hlen : (z.atom.rename σ).vars.length = x.atom.vars.length := by
      rw [Atom.length_vars,Atom.length_vars,Atom.rename_predicate,hp]
    by_cases hargs : argumentsOf xs = []
    · refine h.leastPart.lt_of_ne hu hc (hσ.subset (List.subset_append_left _ _)) hz hne ?_
        (Or.inl hargs)
      intro y hy
      obtain ⟨v,_,hv⟩ := hshare
      have hyx : y.literal.compare x.literal = .lt :=
        (List.pairwise_append.mp (hx.ascending hu)).2.2 y hy x (by simp)
      have hys : y.side = x.side := (hx.side_eq (by simp [hy])).trans (hx.side_eq (by simp)).symm
      exact Literal.compare_eq_lt_of_constant (vars_eq_nil_of_argumentsOf hargs hy) hyx hys hxs hp
        (List.ne_nil_of_mem hv)
    · have hconn := hx.grammatical.connected xs x [] rfl
      have hnum := hx.grammatical.numbered
      rw [argumentsOf_append,argumentsOf_singleton] at hnum
      have hvars : compare x.atom.vars (z.atom.rename σ).vars = .lt := by
        refine hnum.compare_eq_lt_of_new ?_ hlen (hconn.resolve_left hargs) hfirst hshare
        rw [x.atom.length_vars,hp]
        exact harity hp
      rw [Literal.compare_of_side (by exact hxs),Atom.compare_eq_lt_iff]
      exact Or.inr ⟨heq,hvars⟩

theorem prefix_of_constant (hu : u.Complete) (hc : LegalBody u (as ++ bs)) (hx : LegalBody u xs)
    (hσ : Renames σ (as ++ bs) xs) (hconst : argumentsOf as = [])
    (has : ∀ a ∈ as, a.literal.rename σ ∈ xs.map (·.literal)) : as <+: xs := by
  have hvars : ∀ a ∈ as, a.atom.vars = [] := fun a => vars_eq_nil_of_argumentsOf hconst
  have hau : ∀ a ∈ as, a ∈ u.candidates := fun a ha => hc.candidates a (by simp [ha])
  have hasc := hc.ascending hu
  refine prefix_of_pairwise (r := (·.literal.compare ·.literal = .lt)) ?_ ?_
    (List.pairwise_append.mp hasc).1 (hx.ascending hu) ?_ ?_
  · simp
  · intro a b hab hba
    exact Std.OrientedCmp.not_lt_of_lt hab hba
  · intro a ha
    obtain ⟨x,hxs,he⟩ := List.mem_map.mp (has a ha)
    rw [Literal.rename_of_vars_eq_nil (hvars a ha)] at he
    rwa [← hu.eq_of_literal (hx.candidates x hxs) (hau a ha) he]
  · intro x hxs
    obtain ⟨w,hw,he⟩ := hσ x hxs
    rcases List.mem_append.mp hw with hw | hw
    · left
      rw [Literal.rename_of_vars_eq_nil (hvars w hw)] at he
      rwa [hu.eq_of_literal (hx.candidates x hxs) (hau w hw) he]
    · right
      intro a ha
      rw [he,Literal.compare_rename (hvars a ha)]
      exact (List.pairwise_append.mp hasc).2.2 a ha w hw

end LeastParts

/-- The renamed literal is not in the part. -/
def Missing (σ : Equiv.Perm UInt32) (xs : List Candidate) (z : Candidate) : Prop :=
  ∀ x ∈ xs, x.literal ≠ z.literal.rename σ

/-- A literal of the part and a missing one share a variable, and the predicate of the missing
one does not come before. -/
def Crossing (σ : Equiv.Perm UInt32) (cs xs : List Candidate) : Prop :=
  ∃ x ∈ xs, ∃ z ∈ cs, Missing σ xs z ∧ (∃ v ∈ x.atom.vars, v ∈ (z.atom.rename σ).vars) ∧
    (x.atom.predicate.compare z.atom.predicate).isLE

theorem not_missing_iff : ¬ Missing σ xs z ↔ ∃ x ∈ xs, x.literal = z.literal.rename σ := by
  simp [Missing]

theorem crossing_of_shares (hz : z ∈ cs) (hw : ¬ Missing σ xs w) (hm : Missing σ xs z)
    (hshare : ∃ v ∈ w.atom.vars, v ∈ z.atom.vars)
    (hle : (w.atom.predicate.compare z.atom.predicate).isLE) : Crossing σ cs xs := by
  obtain ⟨x,hx,he⟩ := not_missing_iff.mp hw
  obtain ⟨v,hvw,hvz⟩ := hshare
  refine ⟨x,hx,z,hz,hm,⟨σ v,?_,List.mem_map_of_mem hvz⟩,?_⟩
  · rw [Candidate.atom,he]
    exact List.mem_map_of_mem hvw
  · rwa [Candidate.atom,he]

namespace LegalBody

theorem compare_eq_lt (hu : u.Complete) (h : LegalBody u (xs ++ y :: ys)) (hx : x ∈ xs) :
    x.literal.compare y.literal = .lt :=
  (List.pairwise_append.mp (h.ascending hu)).2.2 x hx y (by simp)

theorem predicate_isLE (hu : u.Complete) (h : LegalBody u (xs ++ y :: ys)) (hz : z ∈ y :: ys) :
    (y.atom.predicate.compare z.atom.predicate).isLE := by
  rcases List.mem_cons.mp hz with rfl | hz
  · simp
  · have hasc := (List.pairwise_append.mp (h.ascending hu)).2.1
    have hyz := (List.pairwise_cons.mp hasc).1 z hz
    exact Literal.predicate_isLE (l := y.literal) (m := z.literal) (by rw [hyz]; rfl)

theorem exists_missing (hu : u.Complete) (hc : LegalBody u cs) (σ : Equiv.Perm UInt32)
    (hlen : xs.length < cs.length) : ∃ z ∈ cs, Missing σ xs z := by
  by_contra hnone
  have hnd : (cs.map (·.literal.rename σ)).Nodup := by
    have hmap := (hc.nodup_literals hu).map (Literal.rename_injective σ)
    rwa [List.map_map] at hmap
  have hsub : cs.map (·.literal.rename σ) ⊆ xs.map (·.literal) := by
    intro l hl
    obtain ⟨w,hw,rfl⟩ := List.mem_map.mp hl
    obtain ⟨x,hx,he⟩ := not_missing_iff.mp fun hm => hnone ⟨w,hw,hm⟩
    exact List.mem_map.mpr ⟨x,hx,he⟩
  have hle := (List.Nodup.subperm hnd hsub).length_le
  simp only [List.length_map] at hle
  omega

theorem exists_shares (hu : u.Complete) (h : LegalBody u (as ++ z :: xs ++ y :: ys))
    (hconst : argumentsOf as = []) (hle : (y.atom.predicate.compare z.atom.predicate).isLE) :
    ∃ x ∈ z :: xs, ∃ v ∈ y.atom.vars, v ∈ x.atom.vars := by
  have hzy := h.compare_eq_lt hu (x := z) (by simp)
  rcases h.grammatical.connected (as ++ z :: xs) y ys rfl with hnil | ⟨v,hvy,hv⟩
  · exfalso
    have hzv := vars_eq_nil_of_argumentsOf hnil (x := z) (by simp)
    have hpe : z.atom.predicate.compare y.atom.predicate = .eq :=
      Std.OrientedCmp.isLE_antisymm (Literal.predicate_isLE (by rw [hzy]; rfl)) hle
    have hyv : y.atom.vars = [] := by
      rw [← List.length_eq_zero_iff,y.atom.length_vars,← Predicate.arity_eq_of_compare hpe,
        ← z.atom.length_vars,hzv]
      rfl
    have hzs : z.side = y.side := (h.side_eq (by simp)).trans (h.side_eq (by simp)).symm
    rw [Literal.compare_of_side (by exact hzs),Atom.compare_eq_lt_iff] at hzy
    simp [hpe,hzv,hyv] at hzy
  · obtain ⟨x,hx,hvx⟩ := mem_argumentsOf.mp hv
    refine ⟨x,(List.mem_append.mp hx).resolve_left fun hxa => ?_,v,hvy,hvx⟩
    simp [vars_eq_nil_of_argumentsOf hconst hxa] at hvx

end LegalBody

namespace LeastParts

theorem exists_later (hu : u.Complete) (hc : LegalBody u (as ++ z :: bs))
    (h : LeastParts u (as ++ z :: bs) (as ++ x :: xs))
    (hσ : Renames σ (as ++ z :: bs) (as ++ x :: xs)) (hm : Missing σ (as ++ x :: xs) z)
    (hconst : argumentsOf as = []) :
    ∃ w ∈ bs, ¬ Missing σ (as ++ x :: xs) w ∧
      (w.atom.predicate.compare z.atom.predicate).isLE := by
  have hxz : (x.literal.compare z.literal).isLE := by
    by_contra hn
    have hzx := Std.OrientedCmp.lt_of_not_isLE hn
    have hleast := (h (as ++ [x]) ⟨xs,by simp⟩).least (as ++ [z]) (hc.part ⟨bs,by simp⟩)
    simp [precedes_cons_iff,hzx] at hleast
  obtain ⟨w,hw,he⟩ := hσ x (by simp)
  have hwm : ¬ Missing σ (as ++ x :: xs) w := not_missing_iff.mpr ⟨x,by simp,he⟩
  refine ⟨w,?_,hwm,?_⟩
  · rcases List.mem_append.mp hw with hw | hw
    · have hwv := vars_eq_nil_of_argumentsOf hconst hw
      have hwx := h.leastPart.toLegalBody.compare_eq_lt hu hw
      rw [he,Literal.rename_of_vars_eq_nil hwv] at hwx
      simp at hwx
    · rcases List.mem_cons.mp hw with rfl | hw
      · exact absurd hm hwm
      · exact hw
  · have hp := Literal.predicate_isLE hxz
    rwa [he] at hp

/-- When only literals without variables come before the first missing literal. -/
theorem exists_crossing_of_constant (hu : u.Complete) (hc : LegalBody u (as ++ z :: bs))
    (h : LeastParts u (as ++ z :: bs) xs) (hσ : Renames σ (as ++ z :: bs) xs)
    (hm : Missing σ xs z) (has : ∀ a ∈ as, ¬ Missing σ xs a) (hconst : argumentsOf as = []) :
    (∃ y, Part u (as ++ z :: bs) (xs ++ [y])) ∨ Crossing σ (as ++ z :: bs) xs := by
  have hpre : as <+: xs := prefix_of_constant hu hc h.leastPart.toLegalBody hσ hconst fun a ha =>
    List.mem_map.mpr (not_missing_iff.mp (has a ha))
  obtain ⟨rest,rfl⟩ := hpre
  cases rest with
  | nil =>
    left
    rw [List.append_nil]
    exact ⟨z,hc.part ⟨bs,by simp⟩⟩
  | cons x rest =>
    right
    obtain ⟨w,hw,hwm,hwz⟩ := h.exists_later hu hc hσ hm hconst
    -- the first literal after `z` that is not missing shares a variable with one before it
    obtain ⟨bs₁,f,bs₂,rfl,hf,hbs₁⟩ := exists_first
      (p := fun w => ¬ Missing σ (as ++ x :: rest) w) ⟨w,hw,hwm⟩
    have hsplit : as ++ z :: (bs₁ ++ f :: bs₂) = as ++ z :: bs₁ ++ f :: bs₂ := by simp
    have hwf : w ∈ f :: bs₂ := (List.mem_append.mp hw).resolve_left fun hw' => hbs₁ w hw' hwm
    have hfz := Std.TransCmp.isLE_trans ((hsplit ▸ hc).predicate_isLE hu hwf) hwz
    obtain ⟨g,hg,hshare⟩ := (hsplit ▸ hc).exists_shares hu hconst hfz
    have hgm : Missing σ (as ++ x :: rest) g := by
      rcases List.mem_cons.mp hg with rfl | hg
      · exact hm
      · exact not_not.mp (hbs₁ g hg)
    have hgc : g ∈ z :: (bs₁ ++ f :: bs₂) := List.mem_append_left (f :: bs₂) hg
    exact crossing_of_shares (List.mem_append_right _ hgc) hf hgm hshare
      (Std.TransCmp.isLE_trans hfz (hc.predicate_isLE hu hgc))

/-- A least part that misses a literal can be extended, or there is a crossing. -/
theorem exists_crossing (hu : u.Complete) (hc : LegalBody u cs) (h : LeastParts u cs xs)
    (hσ : Renames σ cs xs) (hlen : xs.length < cs.length) :
    (∃ y, Part u cs (xs ++ [y])) ∨ Crossing σ cs xs := by
  obtain ⟨as,z,bs,rfl,hm,has⟩ := exists_first (hc.exists_missing hu σ hlen)
  rcases hc.grammatical.connected as z bs rfl with hconst | ⟨v,hvz,hva⟩
  · exact h.exists_crossing_of_constant hu hc hσ hm has hconst
  · right
    obtain ⟨w,hw,hvw⟩ := mem_argumentsOf.mp hva
    have hwz := hc.compare_eq_lt hu hw
    have hle := Literal.predicate_isLE (l := w.literal) (m := z.literal) (by rw [hwz]; rfl)
    exact crossing_of_shares (by simp) (has w hw) hm ⟨v,hvw,hvz⟩ hle

/-- In a body where a predicate of more than two parameters occurs once at most, a least part
that misses a literal can be extended. -/
theorem exists_part_append (hu : u.Complete) (hc : LegalBody u cs) (h : LeastParts u cs xs)
    (hlen : xs.length < cs.length)
    (hnarrow : ∀ a ∈ cs, ∀ b ∈ cs, a.atom.predicate = b.atom.predicate → a.atom ≠ b.atom →
      b.atom.predicate.arity ≤ 2) : ∃ y, Part u cs (xs ++ [y]) := by
  obtain ⟨σ,hσ⟩ := h.leastPart.renames
  rcases h.exists_crossing hu hc hσ hlen with hext | ⟨x,hx,z,hz,hm,⟨v,hvx,hvz⟩,hle⟩
  · exact hext
  have hxs := h.leastPart.toLegalBody
  have hfirst := exists_first (p := fun a => ∃ v ∈ a.atom.vars, v ∈ (z.atom.rename σ).vars)
    ⟨x,hx,v,hvx,hvz⟩
  obtain ⟨as,a,bs,rfl,hshare,has⟩ := hfirst
  -- the first literal that shares a variable does not come after `x`
  have hxa : x ∈ a :: bs := (List.mem_append.mp hx).resolve_left fun hx =>
    has x hx ⟨v,hvx,hvz⟩
  have haz := Std.TransCmp.isLE_trans (hxs.predicate_isLE hu hxa) hle
  rw [List.append_cons] at h hσ hm hxs ⊢
  have ha : a.literal.compare (z.literal.rename σ) = .lt := by
    refine h.of_append.lt_of_shares hu hc (hσ.subset (List.subset_append_left _ _)) hz
      (hm a (by simp)) haz ?_ ?_ hshare
    · intro hp
      obtain ⟨w,hw,he⟩ := hσ a (by simp)
      have hwp : w.atom.predicate = z.atom.predicate := by
        rw [← hp,Candidate.atom_eq_rename he]
        rfl
      refine hnarrow w hw z hz hwp fun hwz => hm a (by simp) ?_
      have hs : w.side = z.side := (hc.side_eq hw).trans (hc.side_eq hz).symm
      rw [he,Literal.ext_of_eq hs hwz]
    · intro v hv hm
      obtain ⟨y,hy,hvy⟩ := mem_argumentsOf.mp hm
      exact has y hy ⟨v,hvy,hv⟩
  obtain ⟨v,hva,hvz⟩ := hshare
  have hvas : v ∈ argumentsOf (as ++ [a]) := by
    rw [argumentsOf_append,argumentsOf_singleton]
    exact List.mem_append_right _ hva
  have hlt : ∀ y ∈ as ++ [a], y.literal.compare (z.literal.rename σ) = .lt := by
    intro y hy
    rcases List.mem_append.mp hy with hy | hy
    · exact Std.TransCmp.lt_trans (hxs.of_append.compare_eq_lt hu hy) ha
    · rwa [List.mem_singleton.mp hy]
  have hall := h.forall_lt hu hc hσ hz hm hlt ⟨v,hvz,hvas⟩
  have hvxs : v ∈ argumentsOf (as ++ [a] ++ bs) := by
    rw [argumentsOf_append]
    exact List.mem_append_left _ hvas
  obtain ⟨y,hy,_⟩ := hc.exists_part_append hu hxs hσ hz hall (Or.inr ⟨v,hvz,hvxs⟩)
  exact ⟨y,hy⟩

end LeastParts

theorem LeastPart.nil (hc : LegalBody u cs) : LeastPart u cs [] where
  toPart := hc.part List.nil_prefix
  least ys _ _ := by simp

theorem Part.exists_leastPart (hu : u.Complete) (h : Part u cs xs) :
    ∃ ys, ys.length = xs.length ∧ LeastPart u cs ys := by
  have hclause : ∀ ys, Part u cs ys → ∃ c, Clause.Grown u ys.length c ∧ c.entries = ys := by
    intro ys hys
    obtain ⟨c,hc,rfl⟩ := hu.exists_legal hys.candidates hys.grammatical
    exact ⟨c,Clause.grown_iff.mpr ⟨rfl,Clause.legal_iff.mp hc⟩,rfl⟩
  obtain ⟨c,hc,rfl⟩ := hclause xs h
  obtain ⟨d,hd,hp,hmin⟩ := Clause.exists_least (P := fun c => Part u cs c.entries) ⟨c,hc,h⟩
  have hlen : d.entries.length = c.entries.length := (Clause.grown_iff.mp hd).1
  refine ⟨d.entries,hlen,hp,?_⟩
  intro ys hys hyd
  obtain ⟨e,he,rfl⟩ := hclause ys hys
  exact hmin e (hyd.trans hlen ▸ he) hys

theorem LeastPart.eq_of_length (hu : u.Complete) (hx : LeastPart u cs xs) (hy : LeastPart u cs ys)
    (h : xs.length = ys.length) : xs = ys := by
  by_contra hne
  rcases hu.precedes_or_precedes hx.candidates hy.candidates h hne with hp | hp
  · exact hy.least xs hx.toPart h hp
  · exact hx.least ys hy.toPart h.symm hp

/-- Every length has a part that is least with all its prefixes. -/
theorem LegalBody.exists_leastParts (hu : u.Complete) (hc : LegalBody u cs)
    (hnarrow : ∀ a ∈ cs, ∀ b ∈ cs, a.atom.predicate = b.atom.predicate → a.atom ≠ b.atom →
      b.atom.predicate.arity ≤ 2) {k : Nat} (hk : k ≤ cs.length) :
    ∃ xs, xs.length = k ∧ LeastParts u cs xs := by
  induction k with
  | zero =>
    refine ⟨[],rfl,?_⟩
    intro as has
    rw [List.prefix_nil.mp has]
    exact .nil hc
  | succ k ih =>
    obtain ⟨xs,rfl,hxs⟩ := ih (by omega)
    obtain ⟨y,hy⟩ := hxs.exists_part_append hu hc (by omega) hnarrow
    obtain ⟨zs,hlen,hzs⟩ := hy.exists_leastPart hu
    obtain ⟨as,z,rfl⟩ := List.eq_nil_or_concat' zs |>.resolve_left (by rintro rfl; simp at hlen)
    have has : as.length = xs.length := by simpa using hlen
    -- the least part of the next length extends this one
    have he : as = xs := by
      by_contra hne
      have hap := hzs.toPart.of_append
      rcases hu.precedes_or_precedes hap.candidates hxs.leastPart.candidates has hne with hp | hp
      · exact hxs.leastPart.least as hap has hp
      · apply hzs.least _ hy (by simp [has])
        rw [List.map_append,List.map_append]
        exact precedes_append_right hp _ _
    subst he
    refine ⟨as ++ [z],by simp,?_⟩
    intro bs hbs
    rcases List.prefix_concat_iff.mp hbs with rfl | hbs
    · exact hzs
    · exact hxs bs hbs

/-- The prefixes of the least arrangement of such a body are least. -/
theorem LeastPart.leastParts (hu : u.Complete) (h : LeastPart u cs cs)
    (hnarrow : ∀ a ∈ cs, ∀ b ∈ cs, a.atom.predicate = b.atom.predicate → a.atom ≠ b.atom →
      b.atom.predicate.arity ≤ 2) : LeastParts u cs cs := by
  obtain ⟨xs,hlen,hxs⟩ := h.toLegalBody.exists_leastParts hu hnarrow (Nat.le_refl _)
  have he := hxs.leastPart.eq_of_length hu h hlen
  exact he ▸ hxs

end ClauseDiscovery
