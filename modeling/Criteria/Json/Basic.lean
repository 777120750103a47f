import Criteria.Numeric.Notation

/-! JSON documents. A number keeps the digits that it is written with, and the members of an
object keep their order and their repetitions. -/
namespace Criteria

/-- A number as written: its sign, its digits, and whether it has neither a fraction nor an
exponent. -/
structure Numeral where
  negative : Bool
  decimal : Decimal
  whole : Bool
  deriving DecidableEq

namespace Numeral

/-- The number nearest to what is written. A JSON reader that rounds more than once may come to one
that differs from it in the last place, and refuse `1.7976931348623158e308`, which is nearest to the
largest number. That such a reader takes what is printed of a number for that number is assumed of
it. -/
def value (n : Numeral) : Binary64 := n.decimal.toBinary64 n.negative

/-- The natural number that is written out in digits alone, without a sign. -/
def natural? (n : Numeral) : Option Nat :=
  if n.whole && !n.negative then some n.decimal.digits else none

def ofNat (n : Nat) : Numeral := ⟨false, ⟨n, 0⟩, true⟩

/-- The shortest numeral that reads back as a number. Of two equally near ones the even one is
taken. -/
def ofBinary64 (x : Binary64) : Numeral :=
  ⟨x.negative, Binary64.shortest .even x.magnitude, false⟩

end Numeral

/-- A document. The last constructor stands for what has the form of a value and no meaning: a
number beyond the largest one, or a text with half of a character. -/
inductive Json where
  | null
  | boolean (value : Bool)
  | number (value : Numeral)
  | string (value : String)
  | array (items : List Json)
  | object (members : List (String × Json))
  | meaningless

namespace Json

/-- How many arrays and objects may lie around and in one another, all counted. -/
def maxLevels : Nat := 127

/-- Whether all parts of a document have a meaning and no more than so many arrays and objects lie
in one another. -/
def isReadable : Nat → Json → Bool
  | _, null | _, boolean _ | _, number _ | _, string _ => true
  | _, meaningless => false
  | 0, array _ | 0, object _ => false
  | levels + 1, array items => items.all (isReadable levels)
  | levels + 1, object members => members.all fun member => isReadable levels member.2

/-- A scalar of a document. -/
def ofBinary64 (x : Binary64) : Json := if x.isFinite then number (.ofBinary64 x) else null

/-- The values that an object gives to a name. -/
def valuesAt (name : String) (members : List (String × Json)) : List Json :=
  members.filterMap fun member => if member.1 = name then some member.2 else none

/-- The value of a member that has to occur, and only once. -/
def required? (name : String) (members : List (String × Json)) : Option Json :=
  match valuesAt name members with
  | [value] => some value
  | _ => none

end Json
end Criteria
