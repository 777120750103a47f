import Criteria.Expr.Basic

/-! The tokens of rule text, each with its characters and its place. Places count characters. -/
namespace Criteria

inductive Token.Kind where
  | identifier (name : String)
  | literal (value : Scalar)
  | comparison (operator : Operator)
  | connective (connective : Connective)
  | not
  | opening
  | closing
  deriving DecidableEq

structure Token where
  kind : Token.Kind
  text : String
  position : Nat
  deriving DecidableEq

namespace Token

/-- The place after the last character. -/
def stop (t : Token) : Nat := t.position + t.text.length

/-- The token as a message names it. -/
def describe (t : Token) : String :=
  match t.kind with
  | .identifier name => s!"identifier '{name}'"
  | .literal value => s!"{value.kind.name} {t.text}"
  | .comparison operator => s!"operator '{operator.symbol}'"
  | _ => s!"'{t.text}'"

end Token
end Criteria
