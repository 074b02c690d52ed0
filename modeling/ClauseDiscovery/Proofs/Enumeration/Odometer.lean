import ClauseDiscovery.Enumeration.Odometer
import ClauseDiscovery.Proofs.Enumeration.Successor
import ClauseDiscovery.Word
import Mathlib.Data.List.Perm.Subperm
import Mathlib.Tactic.Ring

/-! The odometer shows every digit string of its length once, in ascending order: a turn leads
to the least larger string, and no digit is raised to the base. -/
namespace ClauseDiscovery
namespace Odometer

def Shows (length : Nat) (base : UInt32) (ds : List UInt32) : Prop :=
  ds.length = length ∧ ∀ d ∈ ds, d < base

variable {base d e : UInt32} {ds es : List UInt32} {k : Nat}

theorem compare_eq_lt : compare d e = .lt ↔ d < e := Std.compare_eq_lt

@[simp] theorem shows_nil : Shows 0 base [] := ⟨rfl,by simp⟩

@[simp] theorem shows_cons : Shows (k+1) base (d :: ds) ↔ d < base ∧ Shows k base ds := by
  simp only [Shows,List.length_cons,List.mem_cons,forall_eq_or_imp,Nat.add_right_cancel_iff]
  tauto

theorem advance_cons_cases (h : advance base (d :: ds) = some es) :
    (∃ fs, advance base ds = some fs ∧ es = d :: fs) ∨
    (advance base ds = none ∧ d + 1 < base ∧ es = (d + 1) :: ds.map fun _ => 0) := by
  unfold advance at h
  cases hn : advance base ds with
  | some fs =>
    left
    exact ⟨fs,rfl,by simpa [hn] using h.symm⟩
  | none =>
    right
    simp only [hn,Option.ite_none_right_eq_some,Option.some.injEq] at h
    exact ⟨rfl,h.1,h.2.symm⟩

theorem shows_zeros (hb : 0 < base) (ds : List UInt32) :
    Shows ds.length base (ds.map fun _ => 0) := ⟨by simp,by simp [hb]⟩

theorem shows_start (h : ¬ (k ≠ 0 ∧ base = 0)) : Shows k base (List.replicate k 0) := by
  refine ⟨by simp,?_⟩
  intro d hd
  obtain ⟨hk,rfl⟩ := List.mem_replicate.mp hd
  have hb : base ≠ 0 := fun hb => h ⟨hk,hb⟩
  grind

theorem zeros_isLE : ∀ (ds : List UInt32) {es : List UInt32}, es.length = ds.length →
    (compare (ds.map fun _ => 0) es).isLE
  | [], es, h => by simp [List.length_eq_zero_iff.mp h]
  | _ :: ds, e :: es, h => by
    rw [List.map_cons,List.compare_cons_cons]
    have ih := zeros_isLE ds (Nat.succ.inj h)
    by_cases he : 0 < e
    · simp [compare_eq_lt.mpr he]
    · obtain rfl : e = 0 := by grind
      simpa using ih

theorem shows_advance (h : Shows k base ds) (ha : advance base ds = some es) :
    Shows k base es := by
  induction ds generalizing k es with
  | nil => simp [advance] at ha
  | cons d ds ih =>
    obtain _ | k := k
    · simp [Shows] at h
    obtain ⟨hd,hds⟩ := shows_cons.mp h
    rcases advance_cons_cases ha with ⟨fs,hfs,rfl⟩ | ⟨_,hlt,rfl⟩
    · exact shows_cons.mpr ⟨hd,ih hds hfs⟩
    · exact shows_cons.mpr ⟨hlt,hds.1 ▸ shows_zeros (by grind) ds⟩

theorem lt_advance (h : Shows k base ds) (ha : advance base ds = some es) :
    compare ds es = .lt := by
  induction ds generalizing k es with
  | nil => simp [advance] at ha
  | cons d ds ih =>
    obtain _ | k := k
    · simp [Shows] at h
    obtain ⟨hd,hds⟩ := shows_cons.mp h
    rcases advance_cons_cases ha with ⟨fs,hfs,rfl⟩ | ⟨_,hlt,rfl⟩
    · simpa [List.compare_cons_cons] using ih hds hfs
    · have hup : d < d + 1 := by grind
      simp [List.compare_cons_cons,compare_eq_lt.mpr hup]

theorem isLE_of_advance_eq_none (h : advance base ds = none) (hd : Shows k base ds)
    (he : Shows k base es) : (compare es ds).isLE := by
  induction ds generalizing k es with
  | nil =>
    have hes : es.length = 0 := he.1.trans hd.1.symm
    simp [List.length_eq_zero_iff.mp hes]
  | cons d ds ih =>
    obtain _ | k := k
    · simp [Shows] at hd
    cases es with
    | nil => simp [Shows] at he
    | cons e es =>
      obtain ⟨hd,hds⟩ := shows_cons.mp hd
      obtain ⟨he,hes⟩ := shows_cons.mp he
      unfold advance at h
      cases hn : advance base ds with
      | some fs => simp [hn] at h
      | none =>
        have htop : ¬ d + 1 < base := by simpa [hn] using h
        rw [List.compare_cons_cons]
        by_cases hlt : e < d
        · simp [compare_eq_lt.mpr hlt]
        · obtain rfl : e = d := by grind
          simpa using ih hn hds hes

/-- A turn does not pass over any string. -/
theorem advance_isLE (hd : Shows k base ds) (he : Shows k base es) (hlt : compare ds es = .lt) :
    ∃ fs, advance base ds = some fs ∧ (compare fs es).isLE := by
  induction ds generalizing k es with
  | nil =>
    have hes : es.length = 0 := he.1.trans hd.1.symm
    simp [List.length_eq_zero_iff.mp hes] at hlt
  | cons d ds ih =>
    obtain _ | k := k
    · simp [Shows] at hd
    cases es with
    | nil => simp [Shows] at he
    | cons e es =>
      obtain ⟨hd,hds⟩ := shows_cons.mp hd
      obtain ⟨he,hes⟩ := shows_cons.mp he
      rw [List.compare_cons_cons,Ordering.then_eq_lt,compare_eq_lt,Std.compare_eq_iff_eq] at hlt
      cases hn : advance base ds with
      | some fs =>
        refine ⟨d :: fs,by simp [advance,hn],?_⟩
        rw [List.compare_cons_cons]
        rcases hlt with hde | ⟨rfl,hlt⟩
        · simp [compare_eq_lt.mpr hde]
        · obtain ⟨gs,hgs,hle⟩ := ih hds hes hlt
          rw [hn] at hgs
          cases hgs
          simpa using hle
      | none =>
        have hde : d < e := by
          rcases hlt with hde | ⟨rfl,hlt⟩
          · exact hde
          · exact absurd (isLE_of_advance_eq_none hn hds hes)
              (Std.OrientedCmp.not_isLE_of_lt hlt)
        have hup : d + 1 < base := by grind
        refine ⟨(d + 1) :: ds.map fun _ => 0,by simp [advance,hn,hup],?_⟩
        rw [List.compare_cons_cons]
        by_cases hlt' : d + 1 < e
        · simp [compare_eq_lt.mpr hlt']
        · obtain rfl : e = d + 1 := by grind
          simpa using zeros_isLE ds (hes.1.trans hds.1.symm)

theorem stepsUp (k : Nat) (base : UInt32) :
    StepsUp compare (Shows k base) (advance base) where
  stays := shows_advance
  ascends := lt_advance
  least := advance_isLE

def strings (base : UInt32) : Nat → List (List UInt32)
  | 0 => [[]]
  | k+1 => (List.range base.toNat).flatMap fun d => (strings base k).map (d.toUInt32 :: ·)

theorem mem_strings (h : Shows k base ds) : ds ∈ strings base k := by
  induction ds generalizing k with
  | nil =>
    obtain rfl : k = 0 := h.1.symm
    simp [strings]
  | cons d ds ih =>
    obtain _ | k := k
    · simp [Shows] at h
    obtain ⟨hd,hds⟩ := shows_cons.mp h
    refine List.mem_flatMap.mpr ⟨d.toNat,List.mem_range.mpr (UInt32.lt_iff_toNat_lt.mp hd),?_⟩
    exact List.mem_map.mpr ⟨ds,ih hds,by simp⟩

theorem shows_of_mem_strings (h : ds ∈ strings base k) : Shows k base ds := by
  induction k generalizing ds with
  | zero =>
    obtain rfl : ds = [] := List.mem_singleton.mp h
    exact shows_nil
  | succ k ih =>
    obtain ⟨i,hi,hm⟩ := List.mem_flatMap.mp h
    obtain ⟨es,hes,rfl⟩ := List.mem_map.mp hm
    have hlt : i < base.toNat := List.mem_range.mp hi
    refine shows_cons.mpr ⟨UInt32.lt_iff_toNat_lt.mpr ?_,ih hes⟩
    rwa [toNat_toUInt32 (hlt.trans base.toNat_lt)]

theorem nodup_strings (base : UInt32) (k : Nat) : (strings base k).Nodup := by
  induction k with
  | zero => exact List.nodup_singleton []
  | succ k ih =>
    refine List.nodup_flatMap.mpr ⟨fun i _ => ih.map List.cons_injective,?_⟩
    apply List.nodup_range.imp_of_mem
    intro i j hi hj hij ds hds hds'
    obtain ⟨es,_,rfl⟩ := List.mem_map.mp hds
    obtain ⟨fs,_,heq⟩ := List.mem_map.mp hds'
    have hdigit : j.toUInt32 = i.toUInt32 := (List.cons.inj heq).1
    have hi : i < UInt32.size := (List.mem_range.mp hi).trans base.toNat_lt
    have hj : j < UInt32.size := (List.mem_range.mp hj).trans base.toNat_lt
    have hsame := congrArg UInt32.toNat hdigit
    rw [toNat_toUInt32 hj,toNat_toUInt32 hi] at hsame
    exact hij hsame.symm

theorem length_strings (base : UInt32) (k : Nat) :
    (strings base k).length = base.toNat.pow k := by
  induction k with
  | zero => rfl
  | succ k ih => simp [strings,List.length_flatMap,ih,Nat.pow_succ,Nat.mul_comm]

theorem mem_readings_iff : ds ∈ readings k base ↔ Shows k base ds := by
  unfold readings
  split
  · rename_i h
    obtain ⟨hk,rfl⟩ := h
    simp only [List.not_mem_nil,false_iff]
    rintro ⟨hl,hd⟩
    obtain ⟨d,hm⟩ := List.exists_mem_of_length_pos (by omega : 0 < ds.length)
    exact absurd (hd d hm) (by simp)
  · rename_i h
    have hcount : ∀ l : List (List UInt32), l.Nodup → (∀ es ∈ l, Shows k base es) →
        l.length ≤ base.toNat.pow k := by
      intro l hl hs
      rw [← length_strings]
      exact (List.Nodup.subperm hl fun es hes => mem_strings (hs es hes)).length_le
    rw [(stepsUp k base).mem_successors_iff (shows_start h) hcount]
    constructor
    · exact And.left
    · intro hds
      refine ⟨hds,?_⟩
      have hz := zeros_isLE (List.replicate k 0) (hds.1.trans (by simp))
      simpa using hz

theorem pairwise_readings (k : Nat) (base : UInt32) :
    (readings k base).Pairwise (compare · · = .lt) := by
  unfold readings
  split
  · simp
  · rename_i h
    exact (stepsUp k base).pairwise_successors _ (shows_start h)

theorem readings_perm_strings (k : Nat) (base : UInt32) :
    (readings k base).Perm (strings base k) := by
  have hnodup : (readings k base).Nodup := nodup_of_ascending (pairwise_readings k base)
  refine (List.perm_ext_iff_of_nodup hnodup (nodup_strings base k)).mpr fun ds => ?_
  exact mem_readings_iff.trans ⟨mem_strings,shows_of_mem_strings⟩

theorem length_readings (k : Nat) (base : UInt32) :
    (readings k base).length = base.toNat.pow k :=
  (readings_perm_strings k base).length_eq.trans (length_strings base k)

end Odometer
end ClauseDiscovery
