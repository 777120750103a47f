import Criteria.Numeric.Notation
import Criteria.Text.Quoted

/-! Scalars: the values that a record holds and that a rule compares with. -/
namespace Criteria

inductive Kind where
  | number
  | string
  | boolean
  deriving DecidableEq

def Kind.name : Kind → String
  | .number => "number"
  | .string => "string"
  | .boolean => "boolean"

/-- Equality of this type is identity: it tells the two zeros apart. -/
inductive Scalar where
  | boolean (value : Bool)
  | number (value : Binary64)
  | string (value : String)
  deriving DecidableEq, Hashable

namespace Scalar

def kind : Scalar → Kind
  | .boolean _ => .boolean
  | .number _ => .number
  | .string _ => .string

/-- Equality of the values, which merges the zeros and holds of nothing that is not a number. -/
def agrees : Scalar → Scalar → Bool
  | .boolean a, .boolean b => a == b
  | .number a, .number b => a.agrees b
  | .string a, .string b => a == b
  | _, _ => false

def isFinite : Scalar → Bool
  | .number x => x.isFinite
  | _ => true

/-- The text of the scalar as a literal of a rule. -/
def text : Scalar → String
  | .boolean b => if b then "true" else "false"
  | .number x => String.ofList x.ruleText
  | .string s => Text.Quoted.write s

end Scalar
end Criteria
