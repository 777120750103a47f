import Criteria.Numeric.Decimal

/-! The shortest decimal that reads back as a given binary number, and of several equally short
ones the nearest. -/
namespace Criteria

/-- The choice between two decimals that are equally near. -/
inductive Tie where
  | up
  | even
  deriving DecidableEq

namespace Binary64

/-- The value of a magnitude in units of the smallest positive number. -/
def units (magnitude : Nat) : Nat :=
  if magnitude < 0x10000000000000 then magnitude
  else (0x10000000000000 + magnitude % 0x10000000000000) <<< (magnitude >>> 52 - 1)

/-- The decimal digits of a magnitude's value, down to the last one before `10 ^ (-1074)`. -/
def exactDigits (magnitude : Nat) : Nat := units magnitude * Nat.pow 5 1074

/-- Of two neighbours on a decimal grid, the one nearer to a point `rest` above the lower. -/
def nearer (tie : Tie) (low rest step : Nat) : Nat :=
  match compare (2 * rest) step, tie with
  | .lt, _ => low
  | .gt, _ => low + 1
  | .eq, .up => low + 1
  | .eq, .even => if low % 2 = 0 then low else low + 1

/-- Looks for a decimal that reads back, on grids of `10 ^ dropped` and finer. Only the two
neighbours of the value can do so. With no digit dropped the decimal is the value itself. -/
def shortestFrom (tie : Tie) (magnitude exact : Nat) : Nat → Decimal
  | 0 => ⟨exact, -1074⟩
  | dropped + 1 =>
    let step := Nat.pow 10 (dropped + 1)
    let low := exact / step
    let exponent := ((dropped + 1 : Nat) : Int) - 1074
    let fits (digits : Nat) : Bool := Decimal.magnitude ⟨digits, exponent⟩ == magnitude
    match fits low, fits (low + 1) with
    | true, true => ⟨nearer tie low (exact % step) step, exponent⟩
    | true, false => ⟨low, exponent⟩
    | false, true => ⟨low + 1, exponent⟩
    | false, false => shortestFrom tie magnitude exact dropped

/-- The search starts at a power of ten above the value: `30103 / 100000` exceeds the decimal
logarithm of two. -/
def shortest (tie : Tie) (magnitude : Nat) : Decimal :=
  if magnitude = 0 then ⟨0, 0⟩
  else
    let exact := exactDigits magnitude
    shortestFrom tie magnitude exact (exact.log2 * 30103 / 100000 + 2)

end Binary64
end Criteria
