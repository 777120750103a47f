/-! Numbers of sixty-four bits: a sign, eleven bits of exponent and fifty-two of fraction. They
compare by value, so the two zeros are equal and a value that is not a number is unordered. -/
namespace Criteria

/-- A number, given by its bits. Equality of this type is equality of bits. -/
structure Binary64 where
  bits : UInt64
  deriving DecidableEq, Hashable

namespace Binary64

def negative (x : Binary64) : Bool := decide (0x8000000000000000 ≤ x.bits.toNat)

/-- The bits below the sign. They grow with the absolute value. -/
def magnitude (x : Binary64) : Nat := x.bits.toNat % 0x8000000000000000

/-- The magnitude of the two infinities. Those above it are not numbers. -/
def infinity : Nat := 2047 <<< 52

def ofMagnitude (negative : Bool) (magnitude : Nat) : Binary64 :=
  ⟨UInt64.ofNat (magnitude % 0x8000000000000000 + if negative then 0x8000000000000000 else 0)⟩

def isNaN (x : Binary64) : Bool := decide (infinity < x.magnitude)

def isFinite (x : Binary64) : Bool := decide (x.magnitude < infinity)

def isZero (x : Binary64) : Bool := x.magnitude == 0

/-- Places all numbers on one line, with the two zeros at the same point. -/
def rank (x : Binary64) : Int := if x.negative then -x.magnitude else x.magnitude

/-- The order of the values. It is absent where one side is not a number. -/
def compare? (x y : Binary64) : Option Ordering :=
  if x.isNaN || y.isNaN then none else some (compare x.rank y.rank)

/-- Equality of the values. It merges the zeros and holds of nothing that is not a number. -/
def agrees (x y : Binary64) : Bool := x.compare? y == some .eq

/-- The same number, with a zero losing its sign. -/
def unsignedZero (x : Binary64) : Binary64 := if x.isZero then ⟨0⟩ else x

theorem magnitude_lt (x : Binary64) : x.magnitude < 0x8000000000000000 :=
  Nat.mod_lt _ (by decide)

theorem toNat_bits (x : Binary64) :
    x.bits.toNat = x.magnitude + if x.negative then 0x8000000000000000 else 0 := by
  have h := x.bits.toNat_lt
  simp only [magnitude, negative, decide_eq_true_eq]
  split <;> omega

/-- Sign and magnitude make up the number. -/
theorem ofMagnitude_self (x : Binary64) : ofMagnitude x.negative x.magnitude = x := by
  have hx : x.magnitude % 0x8000000000000000 = x.magnitude := Nat.mod_eq_of_lt x.magnitude_lt
  simp only [ofMagnitude, hx, ← toNat_bits, UInt64.ofNat_toNat]

theorem toNat_ofMagnitude (s : Bool) (m : Nat) :
    (ofMagnitude s m).bits.toNat =
      m % 0x8000000000000000 + if s then 0x8000000000000000 else 0 := by
  simp only [ofMagnitude, UInt64.toNat_ofNat']
  apply Nat.mod_eq_of_lt
  split <;> omega

@[simp] theorem magnitude_ofMagnitude (s : Bool) (m : Nat) :
    (ofMagnitude s m).magnitude = m % 0x8000000000000000 := by
  rw [magnitude, toNat_ofMagnitude]
  split <;> omega

end Binary64
end Criteria
