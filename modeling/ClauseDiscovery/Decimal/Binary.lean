/-! The value of a double-precision number as an integer times a power of two. -/
namespace ClauseDiscovery
namespace Decimal

/-- A magnitude `mantissa * 2 ^ exponent` with a sign. -/
structure Binary where
  negative : Bool
  mantissa : Nat
  exponent : Int
  deriving DecidableEq, Repr

inductive Double where
  | finite (value : Binary)
  | infinite (negative : Bool)
  | notANumber
  deriving DecidableEq, Repr

/-- Read a double from its bits: the sign, eleven bits of exponent, and a fraction that has a
hidden one in front unless the exponent bits are all zero. -/
def Double.ofBits (bits : UInt64) : Double :=
  let negative := bits >>> 63 == 1
  let biased := ((bits >>> 52) &&& 0x7ff).toNat
  let fraction := (bits &&& 0xfffffffffffff).toNat
  if biased = 0x7ff then
    if fraction = 0 then .infinite negative else .notANumber
  else if biased = 0 then .finite ⟨negative, fraction, -1074⟩
  else .finite ⟨negative, 0x10000000000000 + fraction, (biased : Int) - 1075⟩

end Decimal
end ClauseDiscovery
