/-! 32-bit words as numbers, and counting in them, where to go past the largest word is a failure and
not a return to zero. -/
namespace ClauseDiscovery

structure Overflow where
  word : UInt32
  deriving DecidableEq, Repr

def countUp (v : UInt32) : Except Overflow UInt32 :=
  if v.toNat + 1 < UInt32.size then .ok (v + 1) else .error ⟨v⟩

variable {v : UInt32}

theorem toNat_add_one (h : v.toNat + 1 < UInt32.size) : (v + 1).toNat = v.toNat + 1 := by
  rw [UInt32.toNat_add]
  exact Nat.mod_eq_of_lt h

theorem toNat_toUInt32 {i : Nat} (h : i < UInt32.size) : i.toUInt32.toNat = i :=
  UInt32.toNat_ofNat_of_lt h

theorem countUp_of_lt (h : v.toNat + 1 < UInt32.size) : countUp v = .ok (v + 1) := if_pos h

end ClauseDiscovery
