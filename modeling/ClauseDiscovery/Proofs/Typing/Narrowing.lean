import ClauseDiscovery.Proofs.Typing

/-! What a use does to any typing, however it came about. A typing is the outcome of its own
bindings, taken as uses; so applying a predicate adds uses to those there are, which changes the
variables used only, can make a type only more specific, and refuses ever more. -/
namespace ClauseDiscovery
namespace Typing

variable {e e' : Typing} {p q : Predicate} {vars ws : List UInt32} {v : UInt32} {σ τ : Ty}

theorem fits_bindings (e : Typing) : e.Fits e.bindings where
  used _ _ h := mem_bindings_iff.mpr h
  least _ σ h := ⟨σ,mem_bindings_iff.mp h,Ty.isSupertypeOf_self σ⟩

theorem compatible_bindings (e : Typing) : Compatible e.bindings := by
  intro v σ τ hσ hτ
  have heq : some σ = some τ := (mem_bindings_iff.mp hσ).symm.trans (mem_bindings_iff.mp hτ)
  rw [Option.some.inj heq]
  exact Ty.related_self τ

theorem compatible_of_useAll (h : e.useAll p vars = .ok e') :
    Compatible (e.bindings ++ p.uses vars) :=
  (e.fits_bindings.exists_useEach_iff e.compatible_bindings).mp ⟨e',h⟩

theorem fits_of_useAll (h : e.useAll p vars = .ok e') : e'.Fits (e.bindings ++ p.uses vars) :=
  e.fits_bindings.useAll h

theorem useAll_again (h : e.useAll p vars = .ok e') : e'.useAll p vars = .ok e' := by
  have hf := fits_of_useAll h
  have hc := compatible_of_useAll h
  have htwice : ∀ u, u ∈ e.bindings ++ p.uses vars ++ p.uses vars ↔
      u ∈ e.bindings ++ p.uses vars := by
    intro u
    simp only [List.mem_append]
    tauto
  have hctwice : Compatible (e.bindings ++ p.uses vars ++ p.uses vars) :=
    hc.subset fun u hu => (htwice u).mp hu
  obtain ⟨e₂,he₂⟩ := (hf.exists_useEach_iff hc).mpr hctwice
  have heq : e₂ = e' := (hf.useAll he₂).eq_of_mem_iff hf htwice
  rw [useAll_eq,he₂,heq]

theorem get?_of_useAll (h : e.useAll p vars = .ok e')
    (hv : v ∉ (p.uses vars).map Prod.fst) : e'.get? v = e.get? v := by
  have huses : ∀ τ, (v,τ) ∉ p.uses vars := fun τ hτ => hv (List.mem_map.mpr ⟨_,hτ,rfl⟩)
  apply Option.ext
  intro τ
  rw [(fits_of_useAll h).get?_eq_some_iff,e.fits_bindings.get?_eq_some_iff]
  simp [huses]

theorem exists_subtype_of_useAll (h : e.useAll p vars = .ok e') (hσ : e.get? v = some σ) :
    ∃ τ, e'.get? v = some τ ∧ σ.isSupertypeOf τ :=
  (fits_of_useAll h).least v σ (List.mem_append_left _ (mem_bindings_iff.mpr hσ))

/-- What can be applied afterwards could have been applied before. -/
theorem admits_of_useAll (h : e.useAll p vars = .ok e') (ha : e'.admits q ws) :
    e.admits q ws := by
  have hall : Compatible (e.bindings ++ p.uses vars ++ q.uses ws) :=
    ((fits_of_useAll h).admits_iff (compatible_of_useAll h)).mp ha
  refine (e.fits_bindings.admits_iff e.compatible_bindings).mpr (hall.subset fun u hu => ?_)
  rcases List.mem_append.mp hu with hu | hu
  · exact List.mem_append_left _ (List.mem_append_left _ hu)
  · exact List.mem_append_right _ hu

/-- Applying a predicate is idempotent, changes no variable but those it is applied to, gives
each variable that had a type the same or a more specific one, and admits nothing new. -/
theorem useAll_narrows (h : e.useAll p vars = .ok e') :
    e'.useAll p vars = .ok e' ∧
    (∀ v, v ∉ (p.uses vars).map Prod.fst → e'.get? v = e.get? v) ∧
    (∀ v σ, e.get? v = some σ → ∃ τ, e'.get? v = some τ ∧ σ.isSupertypeOf τ) ∧
    ∀ q ws, e'.admits q ws → e.admits q ws :=
  ⟨useAll_again h,fun _ => get?_of_useAll h,fun _ _ => exists_subtype_of_useAll h,
    fun _ _ => admits_of_useAll h⟩

end Typing

namespace Blocks

def placed : Typing := (Typing.empty.insert 0 block).insert 1 block

def shaped : Predicate := ⟨"N",[thing,cube]⟩

end Blocks

namespace Typing

open Blocks in
/-- A block that is used as a thing and as a cube at once becomes a cube; the other stays. -/
theorem useAll_narrows_blocks : ∃ e', placed.useAll shaped [0,0] = .ok e' ∧
    e'.useAll shaped [0,0] = .ok e' ∧ e'.get? 1 = some block ∧
    (∃ τ, e'.get? 0 = some τ ∧ block.isSupertypeOf τ) ∧
    ∀ q ws, e'.admits q ws → placed.admits q ws := by
  have hused : ∃ e', placed.useAll shaped [0,0] = .ok e' := ⟨_,rfl⟩
  obtain ⟨e',he'⟩ := hused
  obtain ⟨hagain,hlocal,hbelow,hadmits⟩ := useAll_narrows he'
  exact ⟨e',he',hagain,hlocal 1 (by decide),hbelow 0 block (by decide),hadmits⟩

end Typing
end ClauseDiscovery
