import Criteria.Scalar

/-! Rule expressions: comparisons of an attribute with a literal, joined by AND and OR or negated.
The depth is found by a walk over a list of nodes still to visit; `depth_join` and its companions
give the recursive reading. -/
namespace Criteria

inductive Operator where
  | greater
  | less
  | greaterEqual
  | lessEqual
  | equal
  | notEqual
  deriving DecidableEq, Hashable

namespace Operator

def symbol : Operator → String
  | greater => ">"
  | less => "<"
  | greaterEqual => ">="
  | lessEqual => "<="
  | equal => "="
  | notEqual => "!="

/-- The operators that are defined on scalars of every kind. -/
def isEquality : Operator → Bool
  | equal | notEqual => true
  | _ => false

/-- Whether the operator holds of two values that compare so. Values that do not compare are
different. -/
def accepts : Operator → Option Ordering → Bool
  | greater, o => o == some .gt
  | less, o => o == some .lt
  | greaterEqual, o => o == some .gt || o == some .eq
  | lessEqual, o => o == some .lt || o == some .eq
  | equal, o => o == some .eq
  | notEqual, o => o != some .eq

end Operator

inductive Connective where
  | and
  | or
  deriving DecidableEq, Hashable

def Connective.word : Connective → String
  | and => "AND"
  | or => "OR"

/-- A comparison of the attribute `name` with a literal. -/
structure Comparison where
  name : String
  operator : Operator
  value : Scalar
  deriving DecidableEq

inductive Expr where
  | leaf (comparison : Comparison)
  | join (connective : Connective) (left right : Expr)
  | not (operand : Expr)
  deriving DecidableEq

namespace Expr

/-- The number of nodes. -/
def size : Expr → Nat
  | leaf _ => 1
  | join _ l r => l.size + r.size + 1
  | not e => e.size + 1

/-- The number of nodes in a list of expressions with their levels. -/
def sizes : List (Expr × Nat) → Nat
  | [] => 0
  | (e, _) :: rest => e.size + sizes rest

/-- The comparisons from left to right. -/
def leaves : Expr → List Comparison
  | leaf c => [c]
  | join _ l r => l.leaves ++ r.leaves
  | not e => e.leaves

/-- All subexpressions, each after its own parts. -/
def subexprs : Expr → List Expr
  | leaf c => [leaf c]
  | join o l r => l.subexprs ++ r.subexprs ++ [join o l r]
  | not e => e.subexprs ++ [not e]

/-- Adds the attributes of an expression that are not yet in a list, from left to right. -/
def collectAttributes : Expr → List String → List String
  | leaf c, names => if c.name ∈ names then names else names ++ [c.name]
  | join _ l r, names => r.collectAttributes (l.collectAttributes names)
  | not e, names => e.collectAttributes names

/-- The attributes that an expression reads, each once, in the order of first occurrence. -/
def attributes (e : Expr) : List String := e.collectAttributes []

/-- Equality with literals compared by value. -/
def agrees : Expr → Expr → Bool
  | leaf c, leaf d =>
    c.name == d.name && c.operator == d.operator && c.value.agrees d.value
  | join o l r, join p l' r' => o == p && l.agrees l' && r.agrees r'
  | not e, not f => e.agrees f
  | _, _ => false

/-- Visits the listed nodes and all below them, each listed with its level, and returns the
deepest level met. -/
def deepest : List (Expr × Nat) → Nat → Nat
  | [], best => best
  | (leaf _, level) :: rest, best => deepest rest (max best level)
  | (join _ l r, level) :: rest, best =>
    deepest ((l, level + 1) :: (r, level + 1) :: rest) (max best level)
  | (not e, level) :: rest, best => deepest ((e, level + 1) :: rest) (max best level)
termination_by todo => sizes todo
decreasing_by all_goals (simp only [sizes, size]; omega)

/-- The number of levels, that of the root being one. -/
def depth (e : Expr) : Nat := deepest [(e, 1)] 0

/-- The length of a longest path from the root to a leaf. -/
def height : Expr → Nat
  | leaf _ => 1
  | join _ l r => max l.height r.height + 1
  | not e => e.height + 1

theorem height_pos (e : Expr) : 0 < e.height := by
  cases e <;> simp [height]

theorem deepest_cons (e : Expr) (level : Nat) (rest : List (Expr × Nat)) (best : Nat) :
    deepest ((e, level) :: rest) best = deepest rest (max best (level + e.height - 1)) := by
  induction e generalizing level rest best with
  | leaf c => simp [deepest, height]
  | join o l r ihl ihr =>
    have hl := l.height_pos
    have hr := r.height_pos
    rw [deepest, ihl, ihr]
    congr 1
    simp only [height]
    omega
  | not e ih =>
    have he := e.height_pos
    rw [deepest, ih]
    congr 1
    simp only [height]
    omega

theorem depth_eq_height (e : Expr) : e.depth = e.height := by
  simp [depth, deepest_cons, deepest]

@[simp] theorem depth_leaf (c : Comparison) : (leaf c).depth = 1 := by
  simp [depth_eq_height, height]

@[simp] theorem depth_join (o : Connective) (l r : Expr) :
    (join o l r).depth = max l.depth r.depth + 1 := by
  simp [depth_eq_height, height]

@[simp] theorem depth_not (e : Expr) : (not e).depth = e.depth + 1 := by
  simp [depth_eq_height, height]

theorem depth_pos (e : Expr) : 0 < e.depth := e.depth_eq_height ▸ e.height_pos

/-- The deepest expression that rule text, import and joining may build. -/
def maxDepth : Nat := 512

end Expr
end Criteria
