import Criteria.Record

/-! Evaluating an expression against a record. Operands are taken from left to right, and one that
cannot change the result any more is not looked at. -/
namespace Criteria

/-- Compares the encodings byte by byte, a beginning of a text coming before the text. -/
def Text.compareBytes (s t : String) : Ordering :=
  compare s.toByteArray.data.toList t.toByteArray.data.toList

/-- How two strings compare under an operator of order. -/
inductive StringOrdering where
  | reject
  | lexicographic
  deriving DecidableEq

inductive EvalError where
  | missing (name : String)
  | mismatch (name : String) (expected found : Kind)
  deriving DecidableEq

def EvalError.message : EvalError → String
  | missing name => s!"attribute not found in record: {name}"
  | mismatch name expected found =>
    s!"type mismatch on attribute {name}: expected {expected.name}, found {found.name}"

namespace Comparison

/-- Compares a value with the literal. Strings in a comparison of order have to be allowed, and
booleans are only equal or different. -/
def verdict (c : Comparison) (ordering : StringOrdering) (value : Scalar) : Except EvalError Bool :=
  match value, c.value with
  | .number v, .number l => .ok (c.operator.accepts (v.compare? l))
  | .string v, .string l =>
    if c.operator.isEquality then .ok (c.operator.accepts (some (compare v l)))
    else
      match ordering with
      | .lexicographic => .ok (c.operator.accepts (some (Text.compareBytes v l)))
      | .reject => .error (.mismatch c.name .number .string)
  | .boolean v, .boolean l =>
    if c.operator.isEquality then .ok (c.operator.accepts (some (compare v l)))
    else .error (.mismatch c.name .number .boolean)
  | v, l => .error (.mismatch c.name l.kind v.kind)

def evaluate (c : Comparison) (ordering : StringOrdering) (r : Record) : Except EvalError Bool :=
  match r.get? c.name with
  | none => .error (.missing c.name)
  | some value => c.verdict ordering value

end Comparison

/-- Joins the result of a left operand with that of a right one, which is only asked for where the
left one leaves the result open. -/
def Connective.combine (o : Connective) (left : Except EvalError Bool)
    (right : Unit → Except EvalError Bool) : Except EvalError Bool :=
  match o, left with
  | _, .error e => .error e
  | .and, .ok false => .ok false
  | .and, .ok true => right ()
  | .or, .ok true => .ok true
  | .or, .ok false => right ()

def Expr.evaluate (ordering : StringOrdering) (r : Record) : Expr → Except EvalError Bool
  | leaf c => c.evaluate ordering r
  | join o left right => o.combine (left.evaluate ordering r) fun _ => right.evaluate ordering r
  | not e => (e.evaluate ordering r).map (!·)

end Criteria
