import Criteria.Numeric.Binary64

/-! Decimal numbers and the nearest binary number to each. All arithmetic is on naturals, so a
result is exact before its one rounding. -/
namespace Criteria

/-- The number `digits · 10 ^ exponent`. -/
structure Decimal where
  digits : Nat
  exponent : Int
  deriving DecidableEq

/-- The nearest natural to a quotient, and the even one of two equally near. -/
def roundQuotient (numerator denominator : Nat) : Nat :=
  let whole := numerator / denominator
  let doubled := 2 * (numerator % denominator)
  if denominator < doubled ∨ (denominator = doubled ∧ whole % 2 = 1) then whole + 1 else whole

namespace Binary64

/-- The magnitude of the nearest number to a quotient. The quotient is first counted in units of
the smallest positive number; `skipped` is how many low bits of that count do not fit. -/
def nearestMagnitude (numerator denominator : Nat) : Nat :=
  let units := numerator <<< 1074
  let skipped := (units / denominator).log2 - 52
  min (skipped <<< 52 + roundQuotient units (denominator <<< skipped)) infinity

end Binary64

namespace Decimal

/-- The magnitude of the nearest binary number. A power of ten is only formed where the value can
lie between the smallest and the largest positive number. -/
def magnitude (d : Decimal) : Nat :=
  if d.digits = 0 then 0 else
  match d.exponent with
  | .ofNat e =>
    if 400 ≤ e then Binary64.infinity else Binary64.nearestMagnitude (d.digits * Nat.pow 10 e) 1
  | .negSucc e =>
    if d.digits.log2 + 400 ≤ e then 0 else Binary64.nearestMagnitude d.digits (Nat.pow 10 (e + 1))

def toBinary64 (negative : Bool) (d : Decimal) : Binary64 := .ofMagnitude negative d.magnitude

end Decimal

/-- The nearest number to an integer. -/
def Binary64.ofInt (i : Int) : Binary64 := Decimal.toBinary64 (decide (i < 0)) ⟨i.natAbs, 0⟩

end Criteria
