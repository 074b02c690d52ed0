import ClauseDiscovery.Typing
import ClauseDiscovery.Proofs.Language.Ancestry
import Mathlib.Data.List.Nodup

/-! Typings as the outcome of a list of uses. Uses in turn succeed exactly when all types at
which one variable is used are related, and the variable then has the least of them; so their
order does not matter, nor whether the changes of one atom are made at once or gathered first. -/
namespace ClauseDiscovery

def Predicate.uses (p : Predicate) (vars : List UInt32) : List (UInt32 × Ty) :=
  vars.zip p.params

/-- Every two types at which one variable is used are related. -/
def Compatible (us : List (UInt32 × Ty)) : Prop :=
  ∀ v σ τ, (v,σ) ∈ us → (v,τ) ∈ us → σ.Related τ

theorem Compatible.subset {us ws : List (UInt32 × Ty)} (h : Compatible ws) (hs : us ⊆ ws) :
    Compatible us := fun v σ τ hσ hτ => h v σ τ (hs hσ) (hs hτ)

theorem compatible_append_singleton {us : List (UInt32 × Ty)} {v : UInt32} {τ : Ty} :
    Compatible (us ++ [(v,τ)]) ↔ Compatible us ∧ ∀ σ, (v,σ) ∈ us → σ.Related τ := by
  constructor
  · intro h
    refine ⟨h.subset (List.subset_append_left _ _),?_⟩
    intro σ hσ
    exact h v σ τ (by simp [hσ]) (by simp)
  · rintro ⟨h,hτ⟩ w σ ρ hσ hρ
    simp only [List.mem_append,List.mem_singleton,Prod.mk.injEq] at hσ hρ
    rcases hσ with hσ | ⟨rfl,rfl⟩ <;> rcases hρ with hρ | ⟨hw,rfl⟩
    · exact h w σ ρ hσ hρ
    · subst hw
      exact hτ σ hσ
    · exact (hτ ρ hρ).symm
    · exact Ty.related_self _

namespace Typing

/-- The typing that uses lead to: a variable has one of the types at which it is used, and
all of them are supertypes of it. -/
structure Fits (e : Typing) (us : List (UInt32 × Ty)) : Prop where
  used : ∀ v τ, e.get? v = some τ → (v,τ) ∈ us
  least : ∀ v σ, (v,σ) ∈ us → ∃ τ, e.get? v = some τ ∧ σ.isSupertypeOf τ

variable {e e' : Typing} {us ws : List (UInt32 × Ty)} {v : UInt32} {τ : Ty}

theorem fits_empty : Fits empty [] := ⟨by simp,by simp⟩

theorem Fits.isSome_get?_iff (h : e.Fits us) : (e.get? v).isSome ↔ v ∈ us.map Prod.fst := by
  rw [Option.isSome_iff_exists]
  constructor
  · rintro ⟨τ,hτ⟩
    exact List.mem_map.mpr ⟨_,h.used v τ hτ,rfl⟩
  · intro hv
    obtain ⟨⟨w,σ⟩,hw,rfl⟩ := List.mem_map.mp hv
    obtain ⟨τ,hτ,_⟩ := h.least w σ hw
    exact ⟨τ,hτ⟩

theorem useAt_cases (h : e.useAt v τ = .ok e') :
    (e' = e.insert v τ ∧ ∀ σ, e.get? v = some σ → σ.isSupertypeOf τ) ∨
    (e' = e ∧ ∃ σ, e.get? v = some σ ∧ τ.isSupertypeOf σ) := by
  unfold useAt at h
  split at h
  · rename_i hv
    cases h
    exact Or.inl ⟨rfl,by simp [hv]⟩
  · rename_i σ hv
    split at h
    · rename_i hs
      cases h
      exact Or.inl ⟨rfl,by simpa [hv] using hs⟩
    · split at h
      · rename_i hs
        cases h
        exact Or.inr ⟨rfl,σ,hv,hs⟩
      · cases h

theorem exists_useAt_iff :
    (∃ e', e.useAt v τ = .ok e') ↔ ∀ σ, e.get? v = some σ → σ.Related τ := by
  unfold useAt
  cases e.get? v with
  | none => simp
  | some σ => by_cases hs : σ.isSupertypeOf τ <;> by_cases ht : τ.isSupertypeOf σ <;>
      simp [hs,ht,Ty.Related]

theorem Fits.useAt (h : e.Fits us) (hu : e.useAt v τ = .ok e') : e'.Fits (us ++ [(v,τ)]) := by
  rcases useAt_cases hu with ⟨rfl,hσ⟩ | ⟨rfl,σ,hσ,hs⟩
  · constructor
    · intro w ρ hρ
      rw [get?_insert] at hρ
      split at hρ
      · rename_i hw
        cases hρ
        simp [hw]
      · exact List.mem_append_left _ (h.used w ρ hρ)
    · intro w ρ hρ
      simp only [List.mem_append,List.mem_singleton,Prod.mk.injEq] at hρ
      rcases hρ with hρ | ⟨rfl,rfl⟩
      · obtain ⟨κ,hκ,hle⟩ := h.least w ρ hρ
        by_cases hw : w = v
        · subst hw
          exact ⟨τ,by simp [get?_insert],Ty.isSupertypeOf_trans hle (hσ κ hκ)⟩
        · exact ⟨κ,by simp [get?_insert,hw,hκ],hle⟩
      · exact ⟨ρ,by simp [get?_insert],Ty.isSupertypeOf_self ρ⟩
  · constructor
    · intro w ρ hρ
      exact List.mem_append_left _ (h.used w ρ hρ)
    · intro w ρ hρ
      simp only [List.mem_append,List.mem_singleton,Prod.mk.injEq] at hρ
      rcases hρ with hρ | ⟨rfl,rfl⟩
      · exact h.least w ρ hρ
      · exact ⟨σ,hσ,hs⟩

/-- A use is accepted when its type is related to all types used before, since the variable
has one of them and the others are above it. -/
theorem Fits.exists_useAt_iff (h : e.Fits us) :
    (∃ e', e.useAt v τ = .ok e') ↔ ∀ σ, (v,σ) ∈ us → σ.Related τ := by
  rw [Typing.exists_useAt_iff]
  constructor
  · intro hr σ hσ
    obtain ⟨κ,hκ,hle⟩ := h.least v σ hσ
    rcases hr κ hκ with hs | hs
    · exact Or.inl (Ty.isSupertypeOf_trans hle hs)
    · exact Ty.related_of_isSupertypeOf hle hs
  · intro hr σ hσ
    exact hr σ (h.used v σ hσ)

def useEach (e : Typing) (us : List (UInt32 × Ty)) : Except TypeConflict Typing :=
  us.foldlM (fun e (v,τ) => e.useAt v τ) e

theorem useAll_eq (e : Typing) (p : Predicate) (vars : List UInt32) :
    e.useAll p vars = e.useEach (p.uses vars) := rfl

@[simp] theorem useEach_nil (e : Typing) : e.useEach [] = .ok e := rfl

theorem useEach_cons_iff {u : UInt32 × Ty} :
    e.useEach (u :: us) = .ok e' ↔ ∃ e₁, e.useAt u.1 u.2 = .ok e₁ ∧ e₁.useEach us = .ok e' := by
  have hb : e.useEach (u :: us) = (e.useAt u.1 u.2).bind fun e₁ => e₁.useEach us := rfl
  rw [hb]
  cases e.useAt u.1 u.2 <;> simp [Except.bind]

/-- Uses in turn succeed exactly when they are compatible with each other and with the uses
before them. -/
theorem Fits.exists_useEach_iff (h : e.Fits us) (hc : Compatible us) :
    (∃ e', e.useEach ws = .ok e') ↔ Compatible (us ++ ws) := by
  induction ws generalizing e us with
  | nil => simpa using hc
  | cons w ws ih =>
    rw [List.append_cons]
    constructor
    · rintro ⟨e',he⟩
      obtain ⟨e₁,hu,he⟩ := useEach_cons_iff.mp he
      have hw := h.exists_useAt_iff.mp ⟨e₁,hu⟩
      exact (ih (h.useAt hu) (compatible_append_singleton.mpr ⟨hc,hw⟩)).mp ⟨e',he⟩
    · intro hcw
      have hc₁ : Compatible (us ++ [w]) := hcw.subset (List.subset_append_left _ _)
      obtain ⟨e₁,hu⟩ := h.exists_useAt_iff.mpr (compatible_append_singleton.mp hc₁).2
      obtain ⟨e',he⟩ := (ih (h.useAt hu) hc₁).mpr hcw
      exact ⟨e',useEach_cons_iff.mpr ⟨e₁,hu,he⟩⟩

theorem Fits.useEach (h : e.Fits us) (he : e.useEach ws = .ok e') : e'.Fits (us ++ ws) := by
  induction ws generalizing e us with
  | nil =>
    cases he
    simpa using h
  | cons w ws ih =>
    obtain ⟨e₁,hu,he⟩ := useEach_cons_iff.mp he
    rw [List.append_cons]
    exact ih (h.useAt hu) he

theorem Fits.admits_iff {p : Predicate} {vars : List UInt32} (h : e.Fits us)
    (hc : Compatible us) : e.admits p vars ↔ Compatible (us ++ p.uses vars) := by
  rw [Typing.admits_iff,useAll_eq]
  exact h.exists_useEach_iff hc

theorem Fits.useAll {p : Predicate} {vars : List UInt32} (h : e.Fits us)
    (he : e.useAll p vars = .ok e') : e'.Fits (us ++ p.uses vars) := h.useEach he

theorem nodup_variables (e : Typing) : (e.bindings.map Prod.fst).Nodup :=
  List.pairwise_map.mpr (e.ascending.imp UInt32.ne_of_lt)

theorem mem_bindings_iff : (v,τ) ∈ e.bindings ↔ e.get? v = some τ := by
  unfold get?
  constructor
  · intro h
    have hsome : (e.bindings.find? (·.1 == v)).isSome := List.find?_isSome.mpr ⟨_,h,by simp⟩
    obtain ⟨b,hb⟩ := Option.isSome_iff_exists.mp hsome
    have hmem : b ∈ e.bindings := List.mem_of_find?_eq_some hb
    have hbv : b.1 = v := by simpa using List.find?_some hb
    obtain rfl : b = (v,τ) := List.inj_on_of_nodup_map e.nodup_variables hmem h hbv
    simp [hb]
  · intro h
    obtain ⟨⟨w,σ⟩,hb,rfl⟩ := Option.map_eq_some_iff.mp h
    have hw : w = v := by simpa using List.find?_some hb
    exact hw ▸ List.mem_of_find?_eq_some hb

theorem ext_get? (h : ∀ v τ, e.get? v = some τ ↔ e'.get? v = some τ) : e = e' := by
  have hp : e.bindings.Perm e'.bindings := by
    apply (List.perm_ext_iff_of_nodup e.nodup_variables.of_map e'.nodup_variables.of_map).mpr
    intro b
    rw [mem_bindings_iff,h,mem_bindings_iff]
  have heq : e.bindings = e'.bindings := by
    refine hp.eq_of_pairwise (fun b c _ _ hbc hcb => ?_) e.ascending e'.ascending
    exact absurd hcb (UInt32.lt_asymm hbc)
  cases e
  cases e'
  cases heq
  rfl

theorem insert_of_get? (h : e.get? v = some τ) : e.insert v τ = e := by
  apply ext_get?
  intro w σ
  rw [get?_insert]
  split
  · rename_i hw
    rw [hw,h]
  · rfl

/-- The uses say which type a variable has. -/
theorem Fits.get?_eq_some_iff (h : e.Fits us) :
    e.get? v = some τ ↔ (v,τ) ∈ us ∧ ∀ σ, (v,σ) ∈ us → σ.isSupertypeOf τ := by
  constructor
  · intro hτ
    refine ⟨h.used v τ hτ,fun σ hσ => ?_⟩
    obtain ⟨ρ,hρ,hle⟩ := h.least v σ hσ
    obtain rfl : ρ = τ := Option.some.inj (hρ.symm.trans hτ)
    exact hle
  · rintro ⟨hτ,hall⟩
    obtain ⟨ρ,hρ,hle⟩ := h.least v τ hτ
    obtain rfl : ρ = τ := Ty.isSupertypeOf_antisymm (hall ρ (h.used v ρ hρ)) hle
    exact hρ

theorem Fits.eq_of_mem_iff (h : e.Fits us) (h' : e'.Fits ws) (hw : ∀ u, u ∈ us ↔ u ∈ ws) :
    e = e' := by
  apply ext_get?
  intro v τ
  simp only [h.get?_eq_some_iff,h'.get?_eq_some_iff,hw]

/-- The type of a variable once the changes are made, the latest of which stands first. -/
def getWith? (e : Typing) (changes : List (UInt32 × Ty)) (v : UInt32) : Option Ty :=
  ((changes.find? (·.1 == v)).map (·.2)).or (e.get? v)

/-- One use, added to the changes that are still to be made. -/
def narrow (e : Typing) (changes : List (UInt32 × Ty)) (v : UInt32) (needed : Ty) :
    Except TypeConflict (List (UInt32 × Ty)) :=
  match e.getWith? changes v with
  | none => .ok ((v,needed) :: changes)
  | some bound =>
    if bound.isSupertypeOf needed then
      .ok (if bound = needed then changes else (v,needed) :: changes)
    else if needed.isSupertypeOf bound then .ok changes
    else .error ⟨v,bound,needed⟩

/-- The changes that uses in turn make, each of which sees those before it. -/
def narrowings (e : Typing) (changes us : List (UInt32 × Ty)) :
    Except TypeConflict (List (UInt32 × Ty)) :=
  us.foldlM (fun changes (v,τ) => e.narrow changes v τ) changes

def commit (e : Typing) (changes : List (UInt32 × Ty)) : Typing :=
  changes.foldr (fun (v,τ) e => e.insert v τ) e

theorem get?_commit (changes : List (UInt32 × Ty)) :
    (e.commit changes).get? v = e.getWith? changes v := by
  induction changes with
  | nil => simp [commit,getWith?]
  | cons b bs ih =>
    have hb : e.commit (b :: bs) = (e.commit bs).insert b.1 b.2 := rfl
    rw [hb,get?_insert,ih]
    by_cases hv : v = b.1
    · simp [getWith?,hv]
    · simp [getWith?,hv,Ne.symm hv]

theorem useAt_commit (changes : List (UInt32 × Ty)) :
    (e.commit changes).useAt v τ = (e.narrow changes v τ).map e.commit := by
  unfold useAt narrow
  rw [← get?_commit]
  cases hb : (e.commit changes).get? v with
  | none => rfl
  | some bound =>
    by_cases hs : bound.isSupertypeOf τ
    · by_cases he : bound = τ
      · subst he
        simp [insert_of_get? hb,Except.map]
      · simp [hs,he,Except.map,commit]
    · by_cases ht : τ.isSupertypeOf bound <;> simp [hs,ht,Except.map]

theorem useEach_commit (changes : List (UInt32 × Ty)) :
    (e.commit changes).useEach us = (e.narrowings changes us).map e.commit := by
  induction us generalizing changes with
  | nil => rfl
  | cons u us ih =>
    have hu : (e.commit changes).useEach (u :: us) =
      ((e.commit changes).useAt u.1 u.2).bind fun e₁ => e₁.useEach us := rfl
    have hn : e.narrowings changes (u :: us) =
      (e.narrow changes u.1 u.2).bind fun later => e.narrowings later us := rfl
    rw [hu,hn,useAt_commit]
    cases e.narrow changes u.1 u.2 with
    | error c => rfl
    | ok later => exact ih later

def applyEach (e : Typing) (as : List (Predicate × List UInt32)) : Except TypeConflict Typing :=
  as.foldlM (fun e (p,vars) => e.useAll p vars) e

def usesIn (as : List (Predicate × List UInt32)) : List (UInt32 × Ty) :=
  as.flatMap fun (p,vars) => p.uses vars

variable {as bs : List (Predicate × List UInt32)}

theorem useEach_append (us ws : List (UInt32 × Ty)) :
    e.useEach (us ++ ws) = (e.useEach us).bind fun e₁ => e₁.useEach ws := List.foldlM_append

theorem applyEach_eq (e : Typing) (as : List (Predicate × List UInt32)) :
    e.applyEach as = e.useEach (usesIn as) := by
  induction as generalizing e with
  | nil => rfl
  | cons a as ih =>
    have ha : e.applyEach (a :: as) = (e.useAll a.1 a.2).bind fun e₁ => e₁.applyEach as := rfl
    have hu : usesIn (a :: as) = a.1.uses a.2 ++ usesIn as := rfl
    rw [ha,hu,useEach_append,useAll_eq]
    simp only [ih]

theorem exists_applyEach_iff : (∃ e, empty.applyEach as = .ok e) ↔ Compatible (usesIn as) := by
  simp only [applyEach_eq]
  exact fits_empty.exists_useEach_iff (by simp [Compatible])

theorem fits_of_applyEach (h : empty.applyEach as = .ok e) : e.Fits (usesIn as) := by
  rw [applyEach_eq] at h
  simpa using fits_empty.useEach h

theorem mem_usesIn_of_perm (h : as.Perm bs) (u : UInt32 × Ty) : u ∈ usesIn as ↔ u ∈ usesIn bs :=
  (h.flatMap_right _).mem_iff

/-- Another order of the same applications has the same outcome. -/
theorem applyEach_of_perm (h : as.Perm bs) (he : empty.applyEach as = .ok e) :
    empty.applyEach bs = .ok e := by
  have hc : Compatible (usesIn bs) :=
    (exists_applyEach_iff.mp ⟨e,he⟩).subset fun u hu => (mem_usesIn_of_perm h u).mpr hu
  obtain ⟨e',he'⟩ := exists_applyEach_iff.mpr hc
  have heq := (fits_of_applyEach he).eq_of_mem_iff (fits_of_applyEach he') (mem_usesIn_of_perm h)
  rwa [heq]

/-- Applications succeed exactly when all types at which a variable is used are related; the
variables used, and no others, then have the least of their types, in whatever order the
applications are made. Within one application the changes may as well be gathered first. -/
theorem applyEach_spec (as : List (Predicate × List UInt32)) :
    ((∃ e, empty.applyEach as = .ok e) ↔ Compatible (usesIn as)) ∧
    (∀ e, empty.applyEach as = .ok e → ∀ v,
      ((e.get? v).isSome ↔ v ∈ (usesIn as).map Prod.fst) ∧
      ∀ τ, e.get? v = some τ ↔
        (v,τ) ∈ usesIn as ∧ ∀ σ, (v,σ) ∈ usesIn as → σ.isSupertypeOf τ) ∧
    (∀ bs, as.Perm bs → ∀ e, empty.applyEach as = .ok e ↔ empty.applyEach bs = .ok e) ∧
    ∀ (e : Typing) (p : Predicate) (vars : List UInt32),
      e.useAll p vars = (e.narrowings [] (p.uses vars)).map e.commit := by
  refine ⟨exists_applyEach_iff,fun e he v => ?_,fun bs h e => ?_,fun e p vars => ?_⟩
  · have hf := fits_of_applyEach he
    exact ⟨hf.isSome_get?_iff,fun τ => hf.get?_eq_some_iff⟩
  · exact ⟨applyEach_of_perm h,applyEach_of_perm h.symm⟩
  · exact useEach_commit []

end Typing

namespace Blocks

def thing : Ty := .root "thing" false

def block : Ty := .child "block" thing

def cube : Ty := .child "cube" block

/-- A variable is used as a block, and then within one atom as a thing and as a cube. -/
def applications : List (Predicate × List UInt32) :=
  [(⟨"B",[block]⟩,[0]),(⟨"N",[thing,cube]⟩,[0,0])]

end Blocks

namespace Typing

open Blocks in
theorem applyEach_blocks : ∃ e, empty.applyEach applications = .ok e ∧ e.get? 0 = some cube ∧
    empty.applyEach applications.reverse = .ok e := by
  obtain ⟨hiff,htypes,hperm,-⟩ := applyEach_spec applications
  have hc : Compatible (usesIn applications) := by
    intro v σ τ hσ hτ
    have hall : ∀ u ∈ usesIn applications, ∀ w ∈ usesIn applications, u.2.Related w.2 := by decide
    exact hall _ hσ _ hτ
  obtain ⟨e,he⟩ := hiff.mpr hc
  have hleast : ∀ u ∈ usesIn applications, u.2.isSupertypeOf cube := by decide
  refine ⟨e,he,?_,?_⟩
  · exact ((htypes e he 0).2 cube).mpr ⟨by decide,fun σ hσ => hleast _ hσ⟩
  · exact (hperm _ (List.reverse_perm _).symm e).mp he

end Typing
end ClauseDiscovery
