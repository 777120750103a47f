import Criteria.Node.Interning
import Criteria.Text.Word

/-! Combining rules into one, which holds where any or where all of them hold. -/
namespace Criteria

inductive Strategy where
  | any
  | all
  deriving DecidableEq

inductive CombineError where
  | tooFew (count : Nat)
  | tooDeep (depth max : Nat)
  | unknownStrategy (text : String)
  deriving DecidableEq

def CombineError.message : CombineError → String
  | tooFew count => s!"at least two rules are required for combining, got {count}"
  | tooDeep depth max => s!"combined rule would be {depth} levels deep, the limit is {max}"
  | unknownStrategy text => s!"unknown combine strategy: {text} (expected ANY or ALL)"

namespace Strategy

def connective : Strategy → Connective
  | any => .or
  | all => .and

def name : Strategy → String
  | any => "ANY"
  | all => "ALL"

/-- Reads the name of a strategy, in any mix of small letters and capitals. -/
def parse (text : String) : Except CombineError Strategy :=
  match Text.capitals (Text.trim text) with
  | "ANY" => .ok any
  | "ALL" => .ok all
  | _ => .error (.unknownStrategy text)

end Strategy

/-- The depth of a chain. Each join lies above all that comes before it. -/
def chainDepth (first : Node) (rest : List Node) : Nat :=
  rest.foldl (fun depth n => max depth n.expr.depth + 1) first.expr.depth

/-- Joins nodes from left to right. The second result is the next identity. -/
def chain (connective : Connective) (first : Node) (rest : List Node) (fresh : Nat) : Node × Nat :=
  rest.foldl (fun (left, fresh) n => (.join fresh connective left n, fresh + 1)) (first, fresh)

/-- Combines rules in their order. Their nodes become parts of the result. -/
def combine (rules : List Node) (strategy : Strategy) (deduplicate : Bool) (fresh : Nat) :
    Except CombineError (Node × Nat) :=
  match rules with
  | first :: second :: rest =>
    let depth := chainDepth first (second :: rest)
    if Expr.maxDepth < depth then .error (.tooDeep depth Expr.maxDepth)
    else
      let (joined, fresh) := chain strategy.connective first (second :: rest) fresh
      .ok (if deduplicate then joined.deduplicate fresh else (joined, fresh))
  | _ => .error (.tooFew rules.length)

end Criteria
