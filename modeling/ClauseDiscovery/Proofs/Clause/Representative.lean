import ClauseDiscovery.Proofs.Clause.Variant
import ClauseDiscovery.Proofs.Enumeration.Permutation
import Mathlib.Data.Fintype.EquivFin
import Mathlib.Data.Set.Finite.List
import Mathlib.Order.WellFounded

/-! Representatives. The permutations of a clause's variables lead to all its legal variants, and
the insertions to some of them; so what is accepted is the least variant, and of the legal
variants of a clause one is accepted. -/
namespace ClauseDiscovery

variable {u : Universe} {xs ys zs : List Candidate} {x : Candidate} {v w : UInt32}

theorem injective_of_fixes {f : UInt32 → UInt32} {n : Nat}
    (hin : ∀ v, v.toNat < n → (f v).toNat < n)
    (hinj : ∀ v w, v.toNat < n → w.toNat < n → f v = f w → v = w)
    (hout : ∀ v, n ≤ v.toNat → f v = v) : Function.Injective f := by
  intro v w he
  rcases Nat.lt_or_ge v.toNat n with hv | hv <;> rcases Nat.lt_or_ge w.toNat n with hw | hw
  · exact hinj v w hv hw he
  · have := hin v hv
    rw [he,hout w hw] at this
    omega
  · have := hin w hw
    rw [← he,hout v hv] at this
    omega
  · rwa [hout v hv,hout w hw] at he

theorem injective_of_table {f : UInt32 → UInt32} {g : UInt32 → Option Nat} {n : Nat}
    (hn : n ≤ UInt32.size) (hf : ∀ v, f v = ((g v).map Nat.toUInt32).getD v)
    (hin : ∀ v, v.toNat < n → ∃ i < n, g v = some i)
    (hinj : ∀ v w i, g v = some i → g w = some i → v = w)
    (hout : ∀ v, n ≤ v.toNat → g v = none) : Function.Injective f := by
  have hget : ∀ v, v.toNat < n → ∃ i < n, g v = some i ∧ (f v).toNat = i := by
    intro v hv
    obtain ⟨i,hi,hl⟩ := hin v hv
    exact ⟨i,hi,hl,by simpa [hf,hl] using toNat_toUInt32 (hi.trans_le hn)⟩
  refine injective_of_fixes (n := n) ?_ ?_ ?_
  · intro v hv
    obtain ⟨i,hi,_,he⟩ := hget v hv
    rwa [he]
  · intro v w hv hw he
    obtain ⟨i,_,hlv,hev⟩ := hget v hv
    obtain ⟨j,_,hlw,hew⟩ := hget w hw
    obtain rfl : i = j := by rw [← hev,he,hew]
    exact hinj v w i hlv hlw
  · intro v hv
    simp [hf,hout v hv]

theorem permuting_injective {n : Nat} {π : List Nat} (hn : n ≤ UInt32.size)
    (hπ : π.Perm (List.range n)) : Function.Injective (permuting π) := by
  have hlen : π.length = n := by simpa using hπ.length_eq
  have hnd : π.Nodup := hπ.nodup_iff.mpr List.nodup_range
  refine injective_of_table (g := fun v => π[v.toNat]?) hn ?_ ?_ ?_ ?_
  · intro v
    unfold permuting
    split <;> simp [*]
  · intro v hv
    have hi : v.toNat < π.length := by omega
    exact ⟨π[v.toNat],List.mem_range.mp (hπ.subset (List.getElem_mem hi)),
      List.getElem?_eq_getElem hi⟩
  · intro v w i hv hw
    have hi : v.toNat < π.length := (List.getElem?_eq_some_iff.mp hv).1
    exact UInt32.toNat_inj.mp ((List.getElem?_inj hi hnd).mp (hv.trans hw.symm))
  · intro v hv
    exact List.getElem?_eq_none (by omega)

theorem numbering_injective {order : List UInt32}
    (hn : order.length ≤ UInt32.size) (hmem : ∀ v, v ∈ order ↔ v.toNat < order.length) :
    Function.Injective (numbering order) := by
  refine injective_of_table (g := order.idxOf?) hn ?_ ?_ ?_ ?_
  · intro v
    unfold numbering
    split <;> simp [*]
  · intro v hv
    obtain ⟨i,hi⟩ := Option.isSome_iff_exists.mp (List.isSome_idxOf?.mpr ((hmem v).mpr hv))
    exact ⟨i,(List.idxOf?_eq_some_iff.mp hi).1,hi⟩
  · intro v w i hv hw
    obtain ⟨_,hev,_⟩ := List.idxOf?_eq_some_iff.mp hv
    obtain ⟨_,hew,_⟩ := List.idxOf?_eq_some_iff.mp hw
    exact hev.symm.trans hew
  · intro v hv
    exact List.idxOf?_eq_none_iff.mpr fun h => (Nat.not_lt.mpr hv) ((hmem v).mp h)

theorem exists_permuting {σ : UInt32 → UInt32} {n : Nat} (hn : n ≤ UInt32.size)
    (hinj : Function.Injective σ) (hlt : ∀ v, v.toNat < n → (σ v).toNat < n) :
    ∃ π, π.Perm (List.range n) ∧ ∀ v, v.toNat < n → permuting π v = σ v := by
  let π := (List.range n).map fun i => (σ i.toUInt32).toNat
  have htoNat : ∀ i ∈ List.range n, i.toUInt32.toNat = i := fun i hi =>
    toNat_toUInt32 ((List.mem_range.mp hi).trans_le hn)
  have hnd : π.Nodup := by
    refine List.Nodup.map_on ?_ List.nodup_range
    intro i hi j hj hij
    have he := congrArg UInt32.toNat (hinj (UInt32.toNat_inj.mp hij))
    rwa [htoNat i hi,htoNat j hj] at he
  have hsub : π ⊆ List.range n := by
    intro j hj
    obtain ⟨i,hi,rfl⟩ := List.mem_map.mp hj
    refine List.mem_range.mpr (hlt _ ?_)
    rw [htoNat i hi]
    exact List.mem_range.mp hi
  refine ⟨π,(List.Nodup.subperm hnd hsub).perm_of_length_le (by simp [π]),?_⟩
  intro v hv
  simp [permuting,π,List.getElem?_range hv]

theorem Literal.rename_congr {l : Literal} {f g : UInt32 → UInt32}
    (h : ∀ v ∈ l.atom.vars, f v = g v) : l.rename f = l.rename g :=
  Literal.ext_of_eq rfl (Atom.ext_of_eq rfl (List.map_congr_left h))

theorem Universe.Complete.rename?_eq_some_iff (hu : u.Complete) {f : UInt32 → UInt32} :
    u.rename? f xs = some ys ↔
      ys.map (·.literal) = xs.map (·.literal.rename f) ∧ ∀ y ∈ ys, y ∈ u.candidates := by
  unfold Universe.rename?
  induction xs generalizing ys with
  | nil =>
    cases ys <;> simp
  | cons x xs ih =>
    simp only [List.mapM_cons,Option.bind_eq_bind,Option.bind_eq_some_iff,Option.pure_def,
      Option.some.injEq,hu.place?_eq_some_iff]
    constructor
    · rintro ⟨z,⟨hz,hzu⟩,zs,hzs,rfl⟩
      obtain ⟨hl,hc⟩ := ih.mp hzs
      exact ⟨by simp [hz,hl],List.forall_mem_cons.mpr ⟨hzu,hc⟩⟩
    · rintro ⟨hl,hc⟩
      cases ys with
      | nil => simp at hl
      | cons y ys =>
        simp only [List.map_cons,List.cons.injEq] at hl
        obtain ⟨hy,hys⟩ := List.forall_mem_cons.mp hc
        exact ⟨y,⟨hl.1,hy⟩,ys,ih.mpr ⟨hl.2,hys⟩,rfl⟩

theorem mem_argumentsOf_iff_literals :
    v ∈ argumentsOf xs ↔ ∃ l ∈ xs.map (·.literal), v ∈ l.atom.vars := by
  simp [mem_argumentsOf]

theorem argumentsOf_subset_of_perm (h : xs.Perm ys) : argumentsOf xs ⊆ argumentsOf ys := by
  intro v hv
  obtain ⟨x,hx,hv⟩ := mem_argumentsOf.mp hv
  exact mem_argumentsOf.mpr ⟨x,h.subset hx,hv⟩

namespace Clause

variable {c d e : Clause}

theorem mem_argumentsOf_of_perm {σ : UInt32 → UInt32}
    (h : (c.literals.map (·.rename σ)).Perm d.literals) (hv : v ∈ argumentsOf c.entries) :
    σ v ∈ argumentsOf d.entries := by
  obtain ⟨l,hl,hv⟩ := mem_argumentsOf_iff_literals.mp hv
  refine mem_argumentsOf_iff_literals.mpr ⟨l.rename σ,?_,List.mem_map_of_mem hv⟩
  exact h.subset (List.mem_map_of_mem hl)

theorem Variant.distinct_le (h : Variant c d) :
    distinct (argumentsOf c.entries) ≤ distinct (argumentsOf d.entries) := by
  obtain ⟨σ,hσ⟩ := h
  exact distinct_le_of_injective σ.injective fun v hv => mem_argumentsOf_of_perm hσ hv

theorem Variant.toNat_rank_eq (h : Variant c d) (hc : c.Faithful) (hd : d.Faithful) :
    c.rank.toNat = d.rank.toNat := by
  rw [hc.toNat_rank,hd.toNat_rank]
  exact Nat.le_antisymm h.distinct_le h.symm.distinct_le

/-- Looking up renamed literals and replaying them in some order leads to a legal variant. -/
theorem variant_of_replay (hu : u.Complete) {f : UInt32 → UInt32} (hf : Function.Injective f)
    (hxs : xs.Perm d.entries) (hys : u.rename? f xs = some ys) (hzs : zs.Perm ys)
    (he : ofCandidates? zs = some e) : Legal u e ∧ Variant d e := by
  obtain ⟨hl,hc⟩ := hu.rename?_eq_some_iff.mp hys
  refine ⟨legal_of_ofCandidates? (fun z hz => hc z (hzs.subset hz)) he,?_⟩
  have hbij : Function.Bijective f := Finite.injective_iff_bijective.mp hf
  refine ⟨Equiv.ofBijective f hbij,?_⟩
  have hent : e.entries = zs := entries_ofCandidates? he
  have h₁ : (d.literals.map (·.rename f)).Perm (xs.map (·.literal.rename f)) := by
    rw [literals,List.map_map]
    exact (hxs.map _).symm
  have h₂ : (ys.map (·.literal)).Perm e.literals := by
    rw [literals,hent]
    exact (hzs.map _).symm
  exact h₁.trans (hl ▸ h₂)

theorem variant_of_permuted? (hu : u.Complete) {π : List Nat}
    (hπ : π.Perm (List.range d.rank.toNat)) (h : permuted? u d π = some e) :
    Legal u e ∧ Variant d e := by
  obtain ⟨ys,hys,he⟩ := Option.bind_eq_some_iff.mp h
  exact variant_of_replay hu (permuting_injective d.rank.toNat_lt.le hπ) (List.Perm.refl _) hys
    (List.mergeSort_perm _ _) he

theorem variant_of_reordered? (hu : u.Complete) (hd : Legal u d) (hxs : xs.Perm d.entries)
    (h : reordered? u xs = some e) : Legal u e ∧ Variant d e := by
  obtain ⟨ys,hys,he⟩ := Option.bind_eq_some_iff.mp h
  have hlen : distinct (argumentsOf xs) = d.rank.toNat := by
    rw [(hu.faithful hd).toNat_rank]
    exact Nat.le_antisymm (distinct_le_of_subset (argumentsOf_subset_of_perm hxs))
      (distinct_le_of_subset (argumentsOf_subset_of_perm hxs.symm))
  refine variant_of_replay hu (numbering_injective ?_ ?_) hxs hys
    (List.mergeSort_perm _ _) he
  · exact distinct_le_size (argumentsOf xs)
  · intro v
    change v ∈ (argumentsOf xs).eraseDups ↔ v.toNat < distinct (argumentsOf xs)
    rw [hlen,List.mem_eraseDups,← UInt32.lt_iff_toNat_lt,← (hu.faithful hd).mem_argumentsOf_iff]
    exact ⟨fun hv => argumentsOf_subset_of_perm hxs hv,
      fun hv => argumentsOf_subset_of_perm hxs.symm hv⟩

/-- Some permutation of the variables leads to each legal variant. -/
theorem exists_permuted? (hu : u.Complete) (hd : Legal u d) (he : Legal u e)
    (h : Variant d e) :
    ∃ π, π.Perm (List.range d.rank.toNat) ∧ permuted? u d π = some e := by
  have hfd := hu.faithful hd
  have hrank := h.toNat_rank_eq hfd (hu.faithful he)
  obtain ⟨σ,hσ⟩ := h
  have hlt : ∀ v : UInt32, v.toNat < d.rank.toNat → (σ v).toNat < d.rank.toNat := by
    intro v hv
    have hm := hfd.mem_argumentsOf_iff.mpr (UInt32.lt_iff_toNat_lt.mpr hv)
    have := (hu.faithful he).mem_argumentsOf_iff.mp (mem_argumentsOf_of_perm hσ hm)
    rw [hrank]
    exact UInt32.lt_iff_toNat_lt.mp this
  obtain ⟨π,hπ,hπσ⟩ := exists_permuting d.rank.toNat_lt.le σ.injective hlt
  have heq : d.entries.map (·.literal.rename (permuting π)) = d.literals.map (·.rename σ) := by
    rw [literals,List.map_map]
    refine List.map_congr_left fun x hx => Literal.rename_congr fun v hv => hπσ v ?_
    exact UInt32.lt_iff_toNat_lt.mp (hfd.mem_argumentsOf_iff.mp (mem_argumentsOf.mpr ⟨x,hx,hv⟩))
  have hin : ∀ l ∈ d.literals.map (·.rename σ), l.atom ∈ u.atoms := by
    intro l hl
    obtain ⟨x,hx,rfl⟩ := List.mem_map.mp (hσ.subset hl)
    exact Universe.atom_mem_of_mem_candidates (he.mem_candidates x hx)
  obtain ⟨ys,hys,hyc⟩ := exists_candidates hin
  have hperm : ys.Perm e.entries := hu.perm_of_literals hyc he.mem_candidates (hys ▸ hσ)
  have hsorted : ys.mergeSort Candidate.placeLE = e.entries := by
    refine Universe.eq_of_perm_of_placeLE (fun y hy => hyc y (List.mem_mergeSort.mp hy))
      he.mem_candidates (Candidate.pairwise_mergeSort_placeLE ys)
      (hu.faithful he).grammatical.pairwise_placeLE ?_
    exact (List.mergeSort_perm _ _).trans hperm
  refine ⟨π,hπ,Option.bind_eq_some_iff.mpr ⟨ys,?_,?_⟩⟩
  · exact hu.rename?_eq_some_iff.mpr ⟨hys.trans heq.symm,hyc⟩
  · rw [hsorted]
    exact (legal_iff.mp he).1

/-- Legal clauses with the same literals are the same. -/
theorem Legal.eq_of_perm (hu : u.Complete) (hd : Legal u d) (he : Legal u e)
    (h : d.literals.Perm e.literals) : d = e := by
  apply hd.eq_of_entries he
  exact Universe.eq_of_perm_of_placeLE hd.mem_candidates he.mem_candidates
    (hu.faithful hd).grammatical.pairwise_placeLE (hu.faithful he).grammatical.pairwise_placeLE
    (hu.perm_of_literals hd.mem_candidates he.mem_candidates h)

/-- Of all legal variants none is smaller. -/
def Least (u : Universe) (d : Clause) : Prop :=
  ∀ e, Legal u e → Variant d e → ¬ precedes e.literals d.literals

theorem Least.eq_of_variant (hu : u.Complete) (hd : Legal u d) (he : Legal u e)
    (hdl : Least u d) (hel : Least u e) (h : Variant d e) : d = e := by
  by_contra hne
  have hent : d.entries ≠ e.entries := fun he' => hne (hd.eq_of_entries he he')
  rcases hu.precedes_or_precedes hd.mem_candidates he.mem_candidates h.length_eq hent with hp | hp
  · exact hel d hd h.symm hp
  · exact hdl e he h hp

theorem permuting_range (n : Nat) : permuting (List.range n) = id := by
  funext v
  unfold permuting
  by_cases hv : v.toNat < n
  · simp [List.getElem?_range hv]
  · simp [List.getElem?_eq_none (l := List.range n) (i := v.toNat) (by simpa using hv)]

theorem eq_of_permuted?_range (hu : u.Complete) (hd : Legal u d)
    (h : permuted? u d (List.range d.rank.toNat) = some e) : e = d := by
  have he := (variant_of_permuted? hu (List.Perm.refl _) h).1
  obtain ⟨ys,hys,hyd⟩ := Option.bind_eq_some_iff.mp h
  have hl := (hu.rename?_eq_some_iff.mp hys).1
  simp only [permuting_range,Literal.rename_id] at hl
  apply he.eq_of_perm hu hd
  rw [literals,entries_ofCandidates? hyd,literals,← hl]
  exact (List.mergeSort_perm _ _).map _

theorem withstands_iff {o : Option Clause} :
    d.withstands o ↔ ∀ e, o = some e → ¬ precedes e.literals d.literals := by
  cases o <;> simp [withstands]

/-- The pass through the permutations finds the least variant. -/
theorem isLeastRenaming_iff (hu : u.Complete) (hd : Legal u d) :
    d.isLeastRenaming u ↔ Least u d := by
  unfold isLeastRenaming
  rw [Permutation.allButIdentity_iff]
  simp only [withstands_iff]
  constructor
  · intro h e he hde
    obtain ⟨π,hπ,hp⟩ := exists_permuted? hu hd he hde
    by_cases hid : π = List.range d.rank.toNat
    · rw [hid] at hp
      rw [eq_of_permuted?_range hu hd hp]
      simp
    · exact h π hπ hid e hp
  · intro h π hπ _ e hp
    have hv := variant_of_permuted? hu hπ hp
    exact h e hv.1 hv.2

/-- What is least withstands the insertions. -/
theorem isLeastInsertion_of_least (hu : u.Complete) {x : Candidate} (hd : Legal u d)
    (hcd : c.extend? x = some d) (h : Least u d) : isLeastInsertion u c d x := by
  refine List.all_eq_true.mpr fun i hi => withstands_iff.mpr fun e he => ?_
  have hi : i ≤ c.entries.length := (List.mem_range.mp hi).le
  have hperm : (c.entries.insertIdx i x).Perm d.entries := by
    rw [entries_extend? hcd]
    exact (List.perm_insertIdx x c.entries hi).trans (List.perm_append_singleton x _).symm
  have hv := variant_of_reordered? hu hd hperm he
  exact h e hv.1 hv.2

/-- What is accepted is what is legal and least. -/
theorem extendCanonical?_eq_some_iff (hu : u.Complete) {x : Candidate} (hc : Legal u c)
    (hx : x ∈ u.candidates) :
    c.extendCanonical? u x = some d ↔ c.extend? x = some d ∧ Least u d := by
  unfold extendCanonical?
  rw [Option.filter_eq_some_iff,Bool.and_eq_true]
  refine and_congr_right fun hcd => ?_
  have hd := hc.extend? hx hcd
  rw [isLeastRenaming_iff hu hd]
  exact ⟨And.right,fun h => ⟨isLeastInsertion_of_least hu hd hcd h,h⟩⟩

theorem finite_grown (u : Universe) (n : Nat) : {c | Grown u n c}.Finite := by
  induction n with
  | zero =>
    apply (Set.finite_singleton empty).subset
    rintro c ⟨⟩
    rfl
  | succ n ih =>
    have hf := ih.image2 (fun c x => (c.extend? x).getD empty) (List.finite_toSet u.candidates)
    apply hf.subset
    rintro d hd
    cases hd with
    | extend hc hx hcd => exact ⟨_,hc,_,hx,by simp [hcd]⟩

/-- Among grown clauses of one length there is a least one of any kind. -/
theorem exists_least {n : Nat} {P : Clause → Prop} (h : ∃ c, Grown u n c ∧ P c) :
    ∃ d, Grown u n d ∧ P d ∧ ∀ e, Grown u n e → P e → ¬ precedes e.literals d.literals := by
  obtain ⟨c,hc,hp⟩ := h
  let before (d e : {c // Grown u n c}) : Prop := precedes d.1.literals e.1.literals
  have : Finite {c // Grown u n c} := finite_grown u n
  have : IsTrans _ before := ⟨fun _ _ _ => precedes_trans⟩
  have : Std.Irrefl before := ⟨fun d => by simp [before]⟩
  have hwf : WellFounded before := Finite.wellFounded_of_trans_of_irrefl before
  obtain ⟨⟨d,hd⟩,hpd,hmin⟩ := hwf.has_min {e | P e.1} ⟨⟨c,hc⟩,hp⟩
  exact ⟨d,hd,hpd,fun e he hpe => hmin ⟨e,he⟩ hpe⟩

theorem exists_least_variant (hc : Legal u c) :
    ∃ d, Legal u d ∧ Variant c d ∧ Least u d := by
  obtain ⟨n,hn⟩ := hc
  obtain ⟨d,hd,hcd,hmin⟩ := exists_least (P := Variant c) ⟨c,hn,.refl c⟩
  refine ⟨d,⟨n,hd⟩,hcd,?_⟩
  intro e he hde
  have hlen : e.length = n := by
    rw [← hde.length_eq]
    exact (grown_iff.mp hd).1
  exact hmin e (grown_iff.mpr ⟨hlen,legal_iff.mp he⟩) (hcd.trans hde)

/-- Accepted when its last literal is offered to the clause of the others. -/
def Accepted (u : Universe) (d : Clause) : Prop :=
  ∃ xs x c, d.entries = xs ++ [x] ∧ ofCandidates? xs = some c ∧ c.extendCanonical? u x = some d

theorem accepted_iff (hu : u.Complete) (hd : Legal u d) (hne : d ≠ empty) :
    Accepted u d ↔ Least u d := by
  obtain ⟨n,hn⟩ := hd
  cases hn with
  | empty => exact absurd rfl hne
  | @extend n c _ x hc hx hcd =>
    have hent := entries_extend? hcd
    constructor
    · rintro ⟨ys,y,b,hy,hb,hbd⟩
      obtain ⟨rfl,hxy⟩ := List.append_inj' (hent.symm.trans hy) rfl
      obtain rfl : x = y := by simpa using hxy
      obtain rfl : c = b := Option.some.inj ((grown_iff.mp hc).2.1.symm.trans hb)
      exact ((extendCanonical?_eq_some_iff hu ⟨n,hc⟩ hx).mp hbd).2
    · intro h
      exact ⟨c.entries,x,c,hent,(grown_iff.mp hc).2.1,
        (extendCanonical?_eq_some_iff hu ⟨n,hc⟩ hx).mpr ⟨hcd,h⟩⟩

/-- Over the universe of predicates that the order tells apart, an extension is accepted exactly
when it is legal and least among its legal variants, and of the legal variants of a clause with
literals exactly one is accepted. -/
theorem representative_iff_least {ps : List Predicate} (h : Predicate.ToldApart ps)
    (n : UInt32) :
    (∀ c x d, Legal (.ofPredicates ps n) c → x ∈ (Universe.ofPredicates ps n).candidates →
      (c.extendCanonical? (.ofPredicates ps n) x = some d ↔
        c.extend? x = some d ∧ Least (.ofPredicates ps n) d)) ∧
    ∀ c, Legal (.ofPredicates ps n) c → c ≠ empty →
      ∃! d, Legal (.ofPredicates ps n) d ∧ Variant c d ∧ Accepted (.ofPredicates ps n) d := by
  have hu := Universe.complete_ofPredicates h n
  constructor
  · intro c x d hc hx
    exact extendCanonical?_eq_some_iff hu hc hx
  · intro c hc hne
    have hne' : ∀ e, Variant c e → e ≠ empty := by
      rintro e hce rfl
      have hlen : c.entries.length = 0 := hce.length_eq
      exact hne (hc.eq_of_entries ⟨0,.empty⟩ (List.eq_nil_of_length_eq_zero hlen))
    obtain ⟨d,hd,hcd,hl⟩ := exists_least_variant hc
    refine ⟨d,⟨hd,hcd,(accepted_iff hu hd (hne' d hcd)).mpr hl⟩,?_⟩
    rintro e ⟨he,hce,ha⟩
    have hel := (accepted_iff hu he (hne' e hce)).mp ha
    exact hel.eq_of_variant hu he hd hl (hce.symm.trans hcd)

end Clause

namespace Edge

def atoms : List Atom := [on .body 0 0,on .body 0 1,on .body 1 0,on .body 1 1].map (·.atom)

theorem mem_candidates_iff {x : Candidate} :
    x ∈ (Universe.ofPredicates [edge] 2).candidates ↔ atoms[x.index]? = some x.atom := by
  have ha : (Universe.ofPredicates [edge] 2).atoms = atoms := by
    unfold Universe.ofPredicates
    simp only [Universe.arrange,List.mergeSort_singleton]
    decide
  rw [Universe.mem_candidates,ha]

theorem legal_of_ofCandidates? {xs : List Candidate} {c : Clause}
    (h : ∀ x ∈ xs, atoms[x.index]? = some x.atom) (hc : Clause.ofCandidates? xs = some c) :
    Clause.Legal (.ofPredicates [edge] 2) c :=
  Clause.legal_of_ofCandidates? (fun x hx => mem_candidates_iff.mpr (h x hx)) hc

/-- An edge to a vertex that has a loop. -/
def ending : List Candidate := [on .body 0 1,on .body 1 1]

def turned : List Candidate := [on .body 0 0,on .body 1 0]

end Edge

namespace Clause

theorem eq_or_eq_of_rename {σ : Equiv.Perm UInt32} {c e : Clause}
    (h0 : 0 ∈ argumentsOf c.entries) (h1 : 1 ∈ argumentsOf c.entries)
    (he : Legal (.ofPredicates [Edge.edge] 2) e)
    (hσ : (c.literals.map (·.rename σ)).Perm e.literals) :
    σ 0 = 0 ∧ σ 1 = 1 ∨ σ 0 = 1 ∧ σ 1 = 0 := by
  have ht : Predicate.ToldApart [Edge.edge] := by decide
  have hu := Universe.complete_ofPredicates ht 2
  have hsmall : ∀ v ∈ argumentsOf c.entries, σ v = 0 ∨ σ v = 1 := by
    intro v hv
    obtain ⟨x,hx,hvx⟩ := mem_argumentsOf.mp (mem_argumentsOf_of_perm hσ hv)
    have hlt : σ v < 2 :=
      hu.bounded _ (Universe.atom_mem_of_mem_candidates (he.mem_candidates x hx)) _ hvx
    grind
  have h0 := hsmall 0 h0
  have h1 := hsmall 1 h1
  have hne : σ 0 ≠ σ 1 := fun h => absurd (σ.injective h) (by decide)
  grind

theorem least_turned {c d : Clause} (hc : ofCandidates? Edge.ending = some c)
    (hd : ofCandidates? Edge.turned = some d) : Least (.ofPredicates [Edge.edge] 2) d := by
  have ht : Predicate.ToldApart [Edge.edge] := by decide
  have hu := Universe.complete_ofPredicates ht 2
  have hce : c.entries = Edge.ending := entries_ofCandidates? hc
  have hde : d.entries = Edge.turned := entries_ofCandidates? hd
  have hcl := Edge.legal_of_ofCandidates? (by decide) hc
  have hdl := Edge.legal_of_ofCandidates? (by decide) hd
  rintro e he ⟨σ,hσ⟩
  have hcases := eq_or_eq_of_rename (by rw [hde]; decide) (by rw [hde]; decide) he hσ
  have hmap : d.literals.map (·.rename σ) =
      [Edge.on .body (σ 0) (σ 0),Edge.on .body (σ 1) (σ 0)].map (·.literal) := by
    rw [literals,hde]
    rfl
  rw [hmap] at hσ
  rcases hcases with ⟨h0,h1⟩ | ⟨h0,h1⟩ <;> rw [h0,h1] at hσ
  · obtain rfl : d = e := hdl.eq_of_perm hu he (by rw [literals,hde]; exact hσ)
    rw [literals,hde]
    decide
  · obtain rfl : c = e := by
      refine hcl.eq_of_perm hu he ?_
      rw [literals,hce]
      exact (List.Perm.swap _ _ _).trans hσ
    rw [literals,literals,hce,hde]
    decide

/-- Of the two ways to write the clause, the one with the loop first is accepted. -/
theorem representative_of_edge : Predicate.ToldApart [Edge.edge] ∧
    ∃ a b c d, ofCandidates? [Edge.on .body 0 1] = some a ∧
      ofCandidates? [Edge.on .body 0 0] = some b ∧
      a.extend? (Edge.on .body 1 1) = some c ∧ b.extend? (Edge.on .body 1 0) = some d ∧
      Variant c d ∧
      a.extendCanonical? (.ofPredicates [Edge.edge] 2) (Edge.on .body 1 1) ≠ some c ∧
      b.extendCanonical? (.ofPredicates [Edge.edge] 2) (Edge.on .body 1 0) = some d ∧
      ∃! e, Legal (.ofPredicates [Edge.edge] 2) e ∧ Variant c e ∧
        Accepted (.ofPredicates [Edge.edge] 2) e := by
  have ht : Predicate.ToldApart [Edge.edge] := by decide
  have hbuilt : ∃ a b c d, ofCandidates? [Edge.on .body 0 1] = some a ∧
      ofCandidates? [Edge.on .body 0 0] = some b ∧ ofCandidates? Edge.ending = some c ∧
      ofCandidates? Edge.turned = some d ∧ a.extend? (Edge.on .body 1 1) = some c ∧
      b.extend? (Edge.on .body 1 0) = some d ∧ c ≠ empty :=
    ⟨_,_,_,_,rfl,rfl,rfl,rfl,rfl,rfl,by decide⟩
  obtain ⟨a,b,c,d,ha,hb,hc,hd,hac,hbd,hne⟩ := hbuilt
  obtain ⟨hiff,hunique⟩ := representative_iff_least ht 2
  have hce : c.entries = Edge.ending := entries_ofCandidates? hc
  have hde : d.entries = Edge.turned := entries_ofCandidates? hd
  have hcl := Edge.legal_of_ofCandidates? (by decide) hc
  have hdl := Edge.legal_of_ofCandidates? (by decide) hd
  have hcd : Variant c d := by
    refine ⟨Equiv.swap 0 1,?_⟩
    rw [literals,literals,hce,hde]
    exact List.Perm.swap _ _ _
  refine ⟨ht,a,b,c,d,ha,hb,hac,hbd,hcd,fun h => ?_,?_,hunique c hcl hne⟩
  · have hl := ((hiff a _ c (Edge.legal_of_ofCandidates? (by decide) ha)
      (Edge.mem_candidates_iff.mpr (by decide))).mp h).2
    refine hl d hdl hcd ?_
    rw [literals,literals,hce,hde]
    decide
  · exact (hiff b _ d (Edge.legal_of_ofCandidates? (by decide) hb)
      (Edge.mem_candidates_iff.mpr (by decide))).mpr ⟨hbd,least_turned hc hd⟩

end Clause
end ClauseDiscovery
