import ClauseDiscovery.Enumeration.Successor

/-! Digit strings of a fixed length in the order of an odometer, the rightmost digit turning
fastest. Digits are 32-bit words below a common base, so a digit is raised only while the
result is still below the base. -/
namespace ClauseDiscovery
namespace Odometer

/-- The next digit string of the same length: the rightmost digit that can be raised is, and
the digits after it start again from zero. -/
def advance (base : UInt32) : List UInt32 → Option (List UInt32)
  | [] => none
  | d :: ds =>
    match advance base ds with
    | some es => some (d :: es)
    -- a digit is below the base, so `d + 1` does not wrap
    | none => if d + 1 < base then some ((d + 1) :: ds.map fun _ => 0) else none

/-- All strings of `length` digits below `base`, in ascending order. With a base of zero
there is only the empty string. -/
def readings (length : Nat) (base : UInt32) : List (List UInt32) :=
  if length ≠ 0 ∧ base = 0 then []
  else successors (advance base) (base.toNat.pow length) (List.replicate length 0)

theorem length_advance {base : UInt32} {ds es : List UInt32} (h : advance base ds = some es) :
    es.length = ds.length := by
  induction ds generalizing es with
  | nil => simp [advance] at h
  | cons d ds ih =>
    unfold advance at h
    split at h
    · rename_i es' h'
      cases h
      simp [ih h']
    · split at h
      · cases h
        simp
      · cases h

theorem length_of_mem_successors {base : UInt32} {n : Nat} {ds es : List UInt32}
    (h : es ∈ successors (advance base) n ds) : es.length = ds.length := by
  induction n generalizing ds with
  | zero => simp [successors] at h; rw [h]
  | succ n ih =>
    unfold successors at h
    split at h
    · simp at h; rw [h]
    · rename_i fs hf
      rcases List.mem_cons.mp h with rfl | h
      · rfl
      · rw [ih h, length_advance hf]

theorem length_of_mem_readings {length : Nat} {base : UInt32} {ds : List UInt32}
    (h : ds ∈ readings length base) : ds.length = length := by
  unfold readings at h
  split at h
  · simp at h
  · simpa using length_of_mem_successors h

end Odometer
end ClauseDiscovery
