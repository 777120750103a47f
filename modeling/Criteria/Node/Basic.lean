import Criteria.Evaluation
import Std.Data.HashSet

/-! Nodes: expressions whose parts can be shared. Each node has an identity, and two places that
hold one identity hold the same node. Identities are given out in ascending order, so the next one
is all that has to be remembered. -/
namespace Criteria

inductive Node where
  | leaf (id : Nat) (comparison : Comparison)
  | join (id : Nat) (connective : Connective) (left right : Node)
  | not (id : Nat) (operand : Node)
  deriving DecidableEq

namespace Node

def id : Node → Nat
  | leaf id _ | join id _ _ _ | not id _ => id

/-- The expression, with no trace of what was shared. -/
def expr : Node → Expr
  | leaf _ c => .leaf c
  | join _ o l r => .join o l.expr r.expr
  | not _ n => .not n.expr

/-- The node at each place, after the nodes below it. -/
def places : Node → List Node
  | leaf id c => [leaf id c]
  | join id o l r => l.places ++ r.places ++ [join id o l r]
  | not id n => n.places ++ [not id n]

/-- How many different nodes there are, however many places hold them. -/
def count (n : Node) : Nat := (Std.HashSet.ofList (n.places.map id)).size

/-- Gives a new node to every place of an expression, with identities from `fresh` on. The second
result is the next identity. -/
def ofExpr : Expr → Nat → Node × Nat
  | .leaf c, fresh => (leaf fresh c, fresh + 1)
  | .join o l r, fresh =>
    let (left, fresh) := ofExpr l fresh
    let (right, fresh) := ofExpr r fresh
    (join fresh o left right, fresh + 1)
  | .not e, fresh =>
    let (operand, fresh) := ofExpr e fresh
    (not fresh operand, fresh + 1)

/-- Evaluates the expression of a node without forming it. -/
def evaluate (ordering : StringOrdering) (r : Record) : Node → Except EvalError Bool
  | leaf _ c => c.evaluate ordering r
  | join _ o left right => o.combine (left.evaluate ordering r) fun _ => right.evaluate ordering r
  | not _ n => (n.evaluate ordering r).map (!·)

@[simp] theorem expr_ofExpr (e : Expr) (fresh : Nat) : (ofExpr e fresh).1.expr = e := by
  induction e generalizing fresh with
  | leaf c => rfl
  | join o l r ihl ihr => simp [ofExpr, expr, ihl, ihr]
  | not e ih => simp [ofExpr, expr, ih]

theorem evaluate_eq (ordering : StringOrdering) (r : Record) (n : Node) :
    n.evaluate ordering r = n.expr.evaluate ordering r := by
  induction n with
  | leaf id c => rfl
  | join id o left right ihl ihr => simp only [evaluate, expr, Expr.evaluate, ihl, ihr]
  | not id n ih => simp only [evaluate, expr, Expr.evaluate, ih]

end Node
end Criteria
