import ClauseDiscovery.Proofs.Clause.Numbering
import Mathlib.Data.Fintype.EquivFin
import Mathlib.Logic.Equiv.Basic

/-! Renumberings of variables. The variables of a list that are new can be numbered by first
occurrence; this changes no old variable, does not make the list larger, and leaves it above what
it was above before. -/
namespace ClauseDiscovery

variable {vs ws us : List UInt32} {v : UInt32} {τ : Equiv.Perm UInt32}

theorem compare_uint32_lt {v w : UInt32} : compare v w = .lt ↔ v < w := Std.compare_eq_lt

theorem compare_cons_isLE {v w : UInt32} :
    (compare (v :: vs) (w :: ws)).isLE ↔ v < w ∨ v = w ∧ (compare vs ws).isLE := by
  rw [List.compare_cons_cons,Ordering.isLE_then_iff_or,compare_uint32_lt,Std.compare_eq_iff_eq]

theorem compare_cons_eq_lt {v w : UInt32} :
    compare (v :: vs) (w :: ws) = .lt ↔ v < w ∨ v = w ∧ compare vs ws = .lt := by
  rw [List.compare_cons_cons,Ordering.then_eq_lt,compare_uint32_lt,Std.compare_eq_iff_eq]

theorem Numbered.append_next (h : Numbered vs) (hv : v ∉ vs) :
    ∃ w, w ≤ v ∧ w ∉ vs ∧ Numbered (vs ++ [w]) := by
  have hge := h.le_of_notMem hv
  have hw : (distinct vs).toUInt32.toNat = distinct vs :=
    toNat_toUInt32 (hge.trans_lt v.toNat_lt)
  refine ⟨(distinct vs).toUInt32,?_,?_,?_⟩
  · exact UInt32.le_iff_toNat_le.mpr (hw.symm ▸ hge)
  · intro hm
    have := h.mem_iff.mp hm
    omega
  · exact h.append_singleton_iff.mpr hw.le

/-- New variables can be numbered by first occurrence. -/
theorem Numbered.exists_renumbering (h : Numbered vs) (ws : List UInt32) :
    ∃ τ : Equiv.Perm UInt32, (∀ v ∈ vs, τ v = v) ∧ Numbered (vs ++ ws.map τ) ∧
      (compare (ws.map τ) ws).isLE := by
  -- the rest is renamed on the way, so the induction is on its length
  induction hk : ws.length generalizing vs ws with
  | zero =>
    obtain rfl := List.length_eq_zero_iff.mp hk
    exact ⟨.refl _,fun _ _ => rfl,by simpa using h,rfl⟩
  | succ k ih =>
    obtain ⟨w,ws,rfl⟩ := List.exists_cons_of_length_eq_add_one hk
    have hk : ws.length = k := by simpa using hk
    by_cases hw : w ∈ vs
    · have hN : Numbered (vs ++ [w]) := h.append_of_subset (by simpa using hw)
      obtain ⟨τ,hfix,hnum,hle⟩ := ih hN ws hk
      have hτw : τ w = w := hfix w (by simp)
      refine ⟨τ,fun v hv => hfix v (List.mem_append_left _ hv),?_,?_⟩
      · simpa [hτw] using hnum
      · rw [List.map_cons,hτw]
        exact compare_cons_isLE.mpr (Or.inr ⟨rfl,hle⟩)
    · -- the new variable changes places with the next number
      obtain ⟨n,hn,hnv,hN⟩ := h.append_next hw
      obtain ⟨τ,hfix,hnum,hle⟩ := ih hN (ws.map (Equiv.swap w n)) (by simpa using hk)
      have hτn : τ n = n := hfix n (by simp)
      refine ⟨(Equiv.swap w n).trans τ,?_,?_,?_⟩
      · intro v hv
        have hvw : v ≠ w := fun he => hw (he ▸ hv)
        have hvn : v ≠ n := fun he => hnv (he ▸ hv)
        rw [Equiv.trans_apply,Equiv.swap_apply_of_ne_of_ne hvw hvn]
        exact hfix v (List.mem_append_left _ hv)
      · simpa [hτn,Function.comp_def] using hnum
      · rw [List.map_cons,Equiv.trans_apply,Equiv.swap_apply_left,hτn]
        rcases UInt32.lt_or_eq_of_le hn with hlt | rfl
        · exact compare_cons_isLE.mpr (Or.inl hlt)
        · refine compare_cons_isLE.mpr (Or.inr ⟨rfl,?_⟩)
          simpa [Function.comp_def] using hle

theorem Numbered.compare_map_eq_lt (h : Numbered vs) (hfix : ∀ v ∈ vs, τ v = v)
    (hu : us ⊆ vs) (hlt : compare us ws = .lt) : compare us (ws.map τ) = .lt := by
  induction us generalizing ws with
  | nil =>
    cases ws with
    | nil => simp at hlt
    | cons w ws => rfl
  | cons v us ih =>
    cases ws with
    | nil => simp [List.compare_cons_nil] at hlt
    | cons w ws =>
      have hv : v ∈ vs := hu (by simp)
      rw [List.map_cons,compare_cons_eq_lt]
      rcases compare_cons_eq_lt.mp hlt with hvw | ⟨rfl,hrest⟩
      · left
        by_cases hw : w ∈ vs
        · rwa [hfix w hw]
        · have hτw : τ w ∉ vs := by
            intro hm
            have he : τ (τ w) = τ w := hfix _ hm
            exact hw (τ.injective he ▸ hm)
          exact h.lt_of_notMem hv hτw
      · right
        have hus : us ⊆ vs := fun x hx => hu (List.mem_cons_of_mem _ hx)
        exact ⟨(hfix v hv).symm,ih hus hrest⟩

/-- At most two arguments with an old variable among them are smaller than as many new ones that
share a variable with them. -/
theorem Numbered.compare_eq_lt_of_new (h : Numbered (vs ++ us)) (hlen : us.length ≤ 2)
    (hw : ws.length = us.length) (hold : ∃ v ∈ us, v ∈ vs) (hnew : ∀ v ∈ ws, v ∉ vs)
    (hshare : ∃ v ∈ us, v ∈ ws) : compare us ws = .lt := by
  have hN := h.of_append
  have hlt : ∀ v ∈ vs, ∀ w ∈ ws, v < w := fun v hv w hw => hN.lt_of_notMem hv (hnew w hw)
  obtain ⟨v,hvu,hvs⟩ := hold
  obtain ⟨w,hwu,hws⟩ := hshare
  have hvw : v ≠ w := fun he => hnew w hws (he ▸ hvs)
  match us, ws with
  | [], _ => simp at hvu
  | [a], _ =>
    have hva : v = a := by simpa using hvu
    have hwa : w = a := by simpa using hwu
    exact absurd (hva.trans hwa.symm) hvw
  | [a,b], [c,d] =>
    by_cases ha : a ∈ vs
    · exact compare_cons_eq_lt.mpr (Or.inl (hlt a ha c (by simp)))
    · -- the old variable is the second one, and the first is the next new one
      have hb : b ∈ vs := by
        rcases List.mem_pair.mp hvu with rfl | rfl
        · exact absurd hvs ha
        · exact hvs
      have hNa : Numbered (vs ++ [a]) := by
        have hsplit : vs ++ [a,b] = vs ++ [a] ++ [b] := by simp
        rw [hsplit] at h
        exact h.of_append
      have hle := hN.append_singleton_iff.mp hNa
      have hc := hN.le_of_notMem (hnew c (by simp))
      rcases Nat.lt_or_eq_of_le (hle.trans hc) with hac | hac
      · exact compare_cons_eq_lt.mpr (Or.inl (UInt32.lt_iff_toNat_lt.mpr hac))
      · refine compare_cons_eq_lt.mpr (Or.inr ⟨UInt32.toNat_inj.mp hac,?_⟩)
        exact compare_cons_eq_lt.mpr (Or.inl (hlt b hb d (by simp)))
  | [_,_], [] => simp at hw
  | [_,_], [_] => simp at hw
  | [_,_], _ :: _ :: _ :: _ => simp at hw
  | _ :: _ :: _ :: _, _ => simp at hlen

end ClauseDiscovery
