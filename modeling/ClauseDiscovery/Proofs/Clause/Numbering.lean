import ClauseDiscovery.Clause.Basic
import ClauseDiscovery.Proofs.FirstOccurrence
import ClauseDiscovery.Word
import Mathlib.Data.FinEnum

/-! Variables numbered by first occurrence. Reading variables in order against the number of
those read before accepts exactly the lists that are numbered so. -/
namespace ClauseDiscovery

def distinct (vs : List UInt32) : Nat := vs.eraseDups.length

/-- The first occurrences in the list are 0, 1, 2 and so on, in this order. -/
def Numbered (vs : List UInt32) : Prop :=
  vs.eraseDups = (List.range (distinct vs)).map (·.toUInt32)

variable {vs ws : List UInt32} {v w next : UInt32}

theorem distinct_le_of_injective {f : UInt32 → UInt32} (hf : Function.Injective f)
    (h : ∀ v ∈ vs, f v ∈ ws) : distinct vs ≤ distinct ws := by
  have hn : (vs.eraseDups.map f).Nodup := List.Nodup.map hf (nodup_eraseDups vs)
  have hs : vs.eraseDups.map f ⊆ ws.eraseDups := by
    intro w hw
    obtain ⟨v,hv,rfl⟩ := List.mem_map.mp hw
    exact List.mem_eraseDups.mpr (h v (List.mem_eraseDups.mp hv))
  simpa [distinct] using (List.Nodup.subperm hn hs).length_le

theorem distinct_le_of_forall_lt {n : UInt32} (h : ∀ v ∈ vs, v < n) : distinct vs ≤ n.toNat := by
  have hn : (vs.eraseDups.map UInt32.toNat).Nodup :=
    List.Nodup.map (fun _ _ => UInt32.toNat_inj.mp) (nodup_eraseDups vs)
  have hs : vs.eraseDups.map UInt32.toNat ⊆ List.range n.toNat := by
    intro i hi
    obtain ⟨v,hv,rfl⟩ := List.mem_map.mp hi
    exact List.mem_range.mpr (UInt32.lt_iff_toNat_lt.mp (h v (List.mem_eraseDups.mp hv)))
  simpa [distinct] using (List.Nodup.subperm hn hs).length_le

theorem distinct_le_of_subset (h : vs ⊆ ws) : distinct vs ≤ distinct ws :=
  distinct_le_of_injective Function.injective_id fun _ hv => h hv

theorem distinct_le_append (vs ws : List UInt32) : distinct vs ≤ distinct (vs ++ ws) :=
  distinct_le_of_subset (List.subset_append_left _ _)

theorem distinct_le_length (vs : List UInt32) : distinct vs ≤ vs.length :=
  (List.Nodup.subperm (nodup_eraseDups vs) fun _ hv => List.mem_eraseDups.mp hv).length_le

theorem distinct_le_size (vs : List UInt32) : distinct vs ≤ UInt32.size := by
  have h := List.Nodup.length_le_card (nodup_eraseDups vs)
  have hc : Fintype.card UInt32 = UInt32.size := by
    rw [Fintype.card_congr ⟨UInt32.toFin,UInt32.ofFin,fun _ => rfl,fun _ => rfl⟩,Fintype.card_fin]
  exact hc ▸ h

theorem distinct_append_singleton_of_mem (h : v ∈ vs) : distinct (vs ++ [v]) = distinct vs := by
  simp [distinct,eraseDups_append_singleton,h]

theorem distinct_append_singleton_of_notMem (h : v ∉ vs) :
    distinct (vs ++ [v]) = distinct vs + 1 := by
  simp [distinct,eraseDups_append_singleton,h]

@[simp] theorem numbered_nil : Numbered [] := rfl

theorem Numbered.mem_iff (h : Numbered vs) : v ∈ vs ↔ v.toNat < distinct vs := by
  rw [← List.mem_eraseDups,h,List.mem_map]
  constructor
  · rintro ⟨i,hi,rfl⟩
    have hi := List.mem_range.mp hi
    have hsize := distinct_le_size vs
    rwa [toNat_toUInt32 (lt_of_lt_of_le hi hsize)]
  · intro hv
    exact ⟨v.toNat,List.mem_range.mpr hv,by simp⟩

theorem Numbered.le_of_notMem (h : Numbered vs) (hv : v ∉ vs) : distinct vs ≤ v.toNat :=
  Nat.not_lt.mp (mt h.mem_iff.mpr hv)

theorem Numbered.lt_of_notMem {w : UInt32} (h : Numbered vs) (hv : v ∈ vs) (hw : w ∉ vs) :
    v < w := UInt32.lt_iff_toNat_lt.mpr ((h.mem_iff.mp hv).trans_le (h.le_of_notMem hw))

theorem Numbered.of_append (h : Numbered (vs ++ ws)) : Numbered vs := by
  have hp : vs.eraseDups <+: (vs ++ ws).eraseDups := by
    rw [List.eraseDups_append]
    exact List.prefix_append _ _
  have ht := List.prefix_iff_eq_take.mp hp
  have hle := distinct_le_append vs ws
  rw [h,← List.map_take,List.take_range] at ht
  rwa [Nat.min_eq_left (show vs.eraseDups.length ≤ _ from hle)] at ht

theorem Numbered.append_singleton_iff (h : Numbered vs) :
    Numbered (vs ++ [v]) ↔ v.toNat ≤ distinct vs := by
  by_cases hv : v ∈ vs
  · have hlt := h.mem_iff.mp hv
    simp only [Numbered,distinct,eraseDups_append_singleton,hv,↓reduceIte]
    exact ⟨fun _ => hlt.le,fun _ => h⟩
  · have hge := h.le_of_notMem hv
    unfold Numbered
    rw [distinct_append_singleton_of_notMem hv,List.range_succ,List.map_append,← h,
      eraseDups_append_singleton,if_neg hv,List.append_cancel_left_eq,List.map_singleton,
      List.cons.injEq]
    constructor
    · rintro ⟨rfl,_⟩
      exact Nat.mod_le _ _
    · intro hle
      have he : v.toNat = distinct vs := Nat.le_antisymm hle hge
      exact ⟨by simp [← he],rfl⟩

theorem Numbered.append_of_subset (h : Numbered vs) (hw : ws ⊆ vs) : Numbered (vs ++ ws) := by
  induction ws using List.reverseRecOn with
  | nil => simpa using h
  | append_singleton ws w ih =>
    have hws := ih fun v hv => hw (List.mem_append_left _ hv)
    have hm : w ∈ vs ++ ws := List.mem_append_left _ (hw (by simp))
    rw [← List.append_assoc]
    exact hws.append_singleton_iff.mpr (hws.mem_iff.mp hm).le

namespace Clause

theorem inOrder_head_iff : inOrder .head next ws ↔ ∀ w ∈ ws, w < next := by
  induction ws with
  | nil => simp [inOrder]
  | cons w ws ih => simp [inOrder,ih]

/-- In the body, reading `ws` after `vs` is in order when the whole is numbered. -/
theorem inOrder_body_iff (h : Numbered vs) (hn : next.toNat = distinct vs)
    (hs : distinct (vs ++ ws) < UInt32.size) :
    inOrder .body next ws ↔ Numbered (vs ++ ws) := by
  induction ws generalizing vs next with
  | nil => simpa [inOrder] using h
  | cons w ws ih =>
    rw [List.append_cons] at hs ⊢
    have hstep := distinct_le_append (vs ++ [w]) ws
    have hw := h.append_singleton_iff (v := w)
    rcases Nat.lt_trichotomy w.toNat (distinct vs) with hlt | he | hgt
    · have hm := h.mem_iff.mpr hlt
      have hne : w ≠ next := by
        rintro rfl
        omega
      have hwn : w < next := UInt32.lt_iff_toNat_lt.mpr (by omega)
      simp only [inOrder,hne,and_false,↓reduceIte,hwn,decide_true,Bool.true_and]
      exact ih (hw.mpr hlt.le) (by rw [distinct_append_singleton_of_mem hm,hn]) hs
    · obtain rfl : w = next := UInt32.toNat_inj.mp (by omega)
      have hm : w ∉ vs := fun hm => by have := h.mem_iff.mp hm; omega
      have hd := distinct_append_singleton_of_notMem hm
      simp only [inOrder,and_self,↓reduceIte]
      refine ih (hw.mpr he.le) ?_ hs
      have hup := toNat_add_one (v := w) (by omega)
      omega
    · have hne : w ≠ next := by
        rintro rfl
        omega
      have hwn : ¬ w < next := fun hwn => by
        have := UInt32.lt_iff_toNat_lt.mp hwn
        omega
      simp only [inOrder,hne,and_false,↓reduceIte,hwn,decide_false,Bool.false_and,
        Bool.false_eq_true,false_iff]
      intro hN
      have := hw.mp hN.of_append
      omega

theorem max?_spec {m : UInt32} (h : vs.max? = some m) : m ∈ vs ∧ ∀ v ∈ vs, v ≤ m := by
  have : Std.LawfulOrderMax UInt32 :=
    { max_eq_or := fun a b => by
        rw [← UInt32.toNat_inj,← UInt32.toNat_inj,UInt32.toNat_max]
        omega
      max_le_iff := fun a b c => by
        simp only [UInt32.le_iff_toNat_le,UInt32.toNat_max]
        omega }
  exact List.max?_eq_some_iff.mp h

theorem toNat_rankWith {r : UInt32} {a : Atom} (hr : r.toNat = distinct vs)
    (hN : Numbered (vs ++ a.vars)) (hs : distinct (vs ++ a.vars) < UInt32.size) :
    (rankWith r a).toNat = distinct (vs ++ a.vars) := by
  unfold rankWith Atom.max?
  cases hm : a.vars.max? with
  | none =>
    rw [List.max?_eq_none_iff] at hm
    simpa [hm] using hr
  | some m =>
    obtain ⟨hmem,hmax⟩ := max?_spec hm
    have hlt := hN.mem_iff.mp (List.mem_append_right _ hmem)
    have hle := distinct_le_append vs a.vars
    -- the last variable is below the rank or among those just read
    have hlast : distinct (vs ++ a.vars) ≤ Nat.max (distinct vs) (m.toNat + 1) := by
      have hv := toNat_toUInt32 (show distinct (vs ++ a.vars) - 1 < UInt32.size by omega)
      have hin : (distinct (vs ++ a.vars) - 1).toUInt32 ∈ vs ++ a.vars :=
        hN.mem_iff.mpr (by omega)
      rcases List.mem_append.mp hin with h | h
      · have := hN.of_append.mem_iff.mp h
        have := Nat.le_max_left (distinct vs) (m.toNat + 1)
        simp only [Nat.max_def] at *
        omega
      · have := UInt32.le_iff_toNat_le.mp (hmax _ h)
        simp only [Nat.max_def]
        split <;> omega
    rw [UInt32.toNat_max,toNat_add_one (by omega),hr]
    exact Nat.le_antisymm (Nat.max_le.mpr ⟨hle,by omega⟩) hlast

end Clause
end ClauseDiscovery
