import Criteria.Numeric.Shortest

/-! Decimal numbers as text, with all places written out or with an exponent. -/
namespace Criteria
namespace Decimal

/-- The decimal exponent of the first digit. -/
def leading (d : Decimal) : Int := (Nat.toDigits 10 d.digits).length + d.exponent - 1

/-- All places written out. A point appears only in front of further digits. -/
def positional (d : Decimal) : List Char :=
  let digits := Nat.toDigits 10 d.digits
  match d.exponent with
  | .ofNat zeros => if d.digits = 0 then digits else digits ++ List.replicate zeros '0'
  | .negSucc e =>
    let places := e + 1
    if places < digits.length then
      digits.take (digits.length - places) ++ '.' :: digits.drop (digits.length - places)
    else '0' :: '.' :: List.replicate (places - digits.length) '0' ++ digits

/-- The digits with a point after the first, then the exponent with its sign. -/
def scientific (d : Decimal) : List Char :=
  let digits := Nat.toDigits 10 d.digits
  let fraction := if digits.length = 1 then [] else '.' :: digits.drop 1
  let sign := if d.leading < 0 then '-' else '+'
  digits.take 1 ++ fraction ++ 'e' :: sign :: Nat.toDigits 10 d.leading.natAbs

end Decimal

def signed (negative : Bool) (text : List Char) : List Char :=
  if negative then '-' :: text else text

/-- The text of a number in a rule: the shortest decimal that reads back, all places written out.
Of two equally near decimals the larger is taken. -/
def Binary64.ruleText (x : Binary64) : List Char :=
  if x.isNaN then "NaN".toList
  else signed x.negative
    (if x.isFinite then (shortest .up x.magnitude).positional else "inf".toList)

end Criteria
