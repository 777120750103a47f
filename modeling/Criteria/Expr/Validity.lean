import Criteria.Expr.Basic
import Criteria.Text.Display
import Criteria.Text.Word

/-! Which expressions have a rule text, and the first defect of one that has none. Nodes are
visited from left to right, each before its parts. -/
namespace Criteria

inductive Defect where
  | tooDeep
  | invalidName (name : String)
  | notFinite (name : String)
  deriving DecidableEq

def Defect.message : Defect → String
  | tooDeep => s!"tree deeper than {Expr.maxDepth} levels"
  | invalidName name => s!"invalid attribute name: {Text.display name}"
  | notFinite name => s!"non-finite number literal on {name}"

def Comparison.defect? (c : Comparison) : Option Defect :=
  if !Text.isName c.name then some (.invalidName c.name)
  else if !c.value.isFinite then some (.notFinite c.name)
  else none

namespace Expr

/-- Visits the listed nodes and all below them, each listed with its level, up to a defect. A node
that is too deep is not looked into. -/
def firstDefect : List (Expr × Nat) → Option Defect
  | [] => none
  | (leaf c, level) :: rest =>
    if maxDepth < level then some .tooDeep
    else match c.defect? with
      | some defect => some defect
      | none => firstDefect rest
  | (join _ l r, level) :: rest =>
    if maxDepth < level then some .tooDeep
    else firstDefect ((l, level + 1) :: (r, level + 1) :: rest)
  | (not e, level) :: rest =>
    if maxDepth < level then some .tooDeep else firstDefect ((e, level + 1) :: rest)
termination_by todo => sizes todo
decreasing_by all_goals (simp only [sizes, size]; omega)

def defect? (e : Expr) : Option Defect := firstDefect [(e, 1)]

/-- The walk over a list of nodes treats them one after the other. -/
theorem firstDefect_cons (e : Expr) (level : Nat) (rest : List (Expr × Nat)) :
    firstDefect ((e, level) :: rest) = (firstDefect [(e, level)]).or (firstDefect rest) := by
  induction e generalizing level rest with
  | leaf c =>
    simp only [firstDefect]
    split
    · simp
    · cases c.defect? <;> simp
  | join o l r ihl ihr =>
    rw [firstDefect, firstDefect]
    split
    · simp
    · rw [ihl, ihr, ihl (level + 1) [(r, level + 1)], Option.or_assoc]
  | not e ih =>
    rw [firstDefect, firstDefect]
    split
    · simp
    · rw [ih]

end Expr
end Criteria
