import Criteria.Expr.Basic

/-! The canonical text of an expression, with the fewest parentheses. An operator groups its
operands to the left, and NOT applies to a comparison or a parenthesis only. -/
namespace Criteria.Expr

/-- How tightly the outermost operator binds. -/
def precedence : Expr → Nat
  | join .or _ _ => 1
  | join .and _ _ => 2
  | not _ => 3
  | leaf _ => 4

def grouped (parentheses : Bool) (text : String) : String :=
  if parentheses then "(" ++ text ++ ")" else text

/-- The canonical text. A right operand of the same operator keeps its parentheses, which would
otherwise group to the left. -/
def text : Expr → String
  | leaf c => c.name ++ " " ++ c.operator.symbol ++ " " ++ c.value.text
  | join o l r =>
    let own := (join o l r).precedence
    grouped (l.precedence < own) l.text ++ " " ++ o.word ++ " " ++
      grouped (r.precedence ≤ own) r.text
  | not e => "NOT " ++ grouped (e.precedence ≤ 3) e.text

end Criteria.Expr
