import ClauseDiscovery.Decimal.Binary

/-! Numbers with a fixed number of decimal places, rounded from the exact value; a half goes
to the even neighbour. -/
namespace ClauseDiscovery
namespace Decimal

/-- The integer nearest to `n / d`; of two that are equally near, the even one. -/
def roundDiv (n d : Nat) : Nat :=
  let q := n / d
  let r := n % d
  if 2 * r < d then q
  else if d < 2 * r then q + 1
  else q + q % 2

def unitsPerOne (places : Nat) : Nat := Nat.pow 10 places

/-- The magnitude in units of the last place, rounded. -/
def Binary.units (x : Binary) (places : Nat) : Nat :=
  match x.exponent with
  | .ofNat e => (x.mantissa <<< e) * unitsPerOne places
  | .negSucc e => roundDiv (x.mantissa * unitsPerOne places) (1 <<< (e + 1))

/-- A number of units of the last place, with the point before the last `places` digits. -/
def pointText (places units : Nat) : String :=
  let digits := (units % unitsPerOne places).repr
  (units / unitsPerOne places).repr ++
    if places = 0 then ""
    else "." ++ "".pushn '0' (places - digits.length) ++ digits

def fixedText (places : Nat) (x : Float) : String :=
  match Double.ofBits x.toBits with
  | .finite b => (if b.negative then "-" else "") ++ pointText places (b.units places)
  | .infinite negative => if negative then "-inf" else "inf"
  | .notANumber => "NaN"

/-- Rounding moves a quotient by at most half a unit. -/
theorem roundDiv_near (n : Nat) {d : Nat} (hd : 0 < d) :
    2 * n ≤ 2 * (roundDiv n d * d) + d ∧ 2 * (roundDiv n d * d) ≤ 2 * n + d := by
  have hn := Nat.div_add_mod n d
  have hr := Nat.mod_lt n hd
  have hc := Nat.mul_comm d (n / d)
  simp only [roundDiv]
  split
  · omega
  · split
    · simp only [Nat.add_mul,Nat.one_mul]
      omega
    · rcases Nat.mod_two_eq_zero_or_one (n / d) with h | h <;> rw [h]
      · rw [Nat.add_zero]
        omega
      · simp only [Nat.add_mul,Nat.one_mul]
        omega

/-- A quotient that lies half way is rounded to an even number. -/
theorem even_roundDiv_of_half {n d : Nat} (h : 2 * (n % d) = d) : roundDiv n d % 2 = 0 := by
  have h₁ : ¬ 2 * (n % d) < d := by omega
  have h₂ : ¬ d < 2 * (n % d) := by omega
  simp only [roundDiv,h₁,h₂,↓reduceIte]
  omega

end Decimal
end ClauseDiscovery
