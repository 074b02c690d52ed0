import ClauseDiscovery.Universe.InPlace
import ClauseDiscovery.Proofs.Enumeration.Odometer

/-! Filling a universe in place never raises the largest word, and it comes to an end: each
predicate takes as many rounds as it has readings, and what is listed is the universe. A digit is
below the base, so the word after it is there, however large the base. -/
namespace ClauseDiscovery
namespace Odometer

variable {base d : UInt32} {ds : List UInt32} {listed : List (List UInt32)} {b k rounds : Nat}

theorem countUp_digit (h : d < base) : countUp d = .ok (d + 1) := by
  have hlt : d.toNat < base.toNat := UInt32.lt_iff_toNat_lt.mp h
  have hsize : base.toNat < UInt32.size := base.toNat_lt
  exact countUp_of_lt (by omega)

/-- A turn in place is a turn; from the last reading it leads back to zeros. -/
theorem turn_eq (h : Shows k base ds) : turn base ds = .ok (match advance base ds with
    | some es => (true,es)
    | none => (false,ds.map fun _ => 0)) := by
  induction ds generalizing k with
  | nil => rfl
  | cons d ds ih =>
    obtain _ | k := k
    · simp [Shows] at h
    obtain ⟨hd,hds⟩ := shows_cons.mp h
    rw [turn,ih hds,advance]
    cases advance base ds with
    | some es => rfl
    | none =>
      simp only [bind,Except.bind,countUp_digit hd]
      split <;> rfl

theorem listFrom_eq (hds : Shows k base ds)
    (hb : (successors (advance base) b ds).length ≤ b) :
    listFrom base rounds ds listed = .ok (if (successors (advance base) b ds).length ≤ rounds then
      some (listed ++ successors (advance base) b ds) else none) := by
  induction rounds generalizing b ds listed with
  | zero =>
    have hne : successors (advance base) b ds ≠ [] := successors_ne_nil b ds
    simp [listFrom,hne]
    rfl
  | succ rounds ih =>
    cases b with
    | zero => simp [successors] at hb
    | succ b =>
      rw [listFrom,turn_eq hds]
      cases hn : advance base ds with
      | none =>
        simp [successors,hn,bind,Except.bind]
        rfl
      | some es =>
        have hlist : successors (advance base) (b+1) ds = ds :: successors (advance base) b es := by
          simp [successors,hn]
        have hrest : listFrom base rounds es (listed ++ [ds]) = _ :=
          ih (shows_advance hds hn) (by simpa [hlist] using hb)
        simp [bind,Except.bind,hrest,hlist]

theorem listInPlace_eq (k : Nat) (base : UInt32) (rounds : Nat) :
    listInPlace k base rounds =
      .ok (if base.toNat.pow k ≤ rounds then some (readings k base) else none) := by
  have hlen := length_readings k base
  unfold listInPlace
  split
  · rename_i h
    have hnone : readings k base = [] := if_pos h
    rw [hnone] at hlen ⊢
    rw [← hlen,List.length_nil,if_pos (Nat.zero_le rounds)]
    rfl
  · rename_i h
    have hlist : readings k base =
        successors (advance base) (base.toNat.pow k) (List.replicate k 0) := if_neg h
    rw [hlist] at hlen ⊢
    rw [listFrom_eq (shows_start h) hlen.le,hlen]
    rfl

end Odometer

namespace Universe

variable {bound : UInt32} {rounds : Nat}

theorem map_vars_atomsOf (bound : UInt32) (p : Predicate) :
    (atomsOf bound p).map (fun a => (a.predicate,a.vars)) =
      (Odometer.readings p.arity bound).map (p,·) := by
  simp [atomsOf]

theorem listInPlace_eq (bound : UInt32) (rounds : Nat) (ps : List Predicate) :
    listInPlace bound rounds ps =
      .ok (if ∀ p ∈ ps, bound.toNat.pow p.arity ≤ rounds then
        some ((ps.flatMap (atomsOf bound)).map fun a => (a.predicate,a.vars)) else none) := by
  induction ps with
  | nil => rfl
  | cons p ps ih =>
    rw [listInPlace,Odometer.listInPlace_eq,ih]
    have hcons : (∀ q ∈ p :: ps, bound.toNat.pow q.arity ≤ rounds) ↔
        bound.toNat.pow p.arity ≤ rounds ∧ ∀ q ∈ ps, bound.toNat.pow q.arity ≤ rounds :=
      List.forall_mem_cons
    by_cases hp : bound.toNat.pow p.arity ≤ rounds
    · by_cases hps : ∀ q ∈ ps, bound.toNat.pow q.arity ≤ rounds
      · rw [if_pos hp,if_pos hps,if_pos (hcons.mpr ⟨hp,hps⟩),List.flatMap_cons,List.map_append,
          map_vars_atomsOf]
        rfl
      · rw [if_pos hp,if_neg hps,if_neg fun h => hps (hcons.mp h).2]
        rfl
    · rw [if_neg hp,if_neg fun h => hp (hcons.mp h).1]
      rfl

end Universe
end ClauseDiscovery
