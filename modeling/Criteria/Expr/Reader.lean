import Criteria.Token.Scan

/-! Reading an expression from its tokens, one token at a time. OR binds weaker than AND, both
group to the left, and NOT applies to a comparison or a parenthesis. A state keeps what stands
before the operand being read, for each parenthesis that is open. How much may be open at once and
how deep an expression may grow are limits that the reader is given. The levels of an expression are
counted while it is read. -/
namespace Criteria

/-- What could have stood where reading failed. -/
inductive Expected where
  | rule
  | operand
  | operator
  | literal
  | closing
  | nothing
  | shallowerNesting
  | shallowerTree
  deriving DecidableEq

/-- A place that does not continue a rule. The text has ended where no token was found. -/
structure ParseError where
  position : Nat
  expected : Expected
  found : Option Token
  deriving DecidableEq

namespace Expr

/-- How many parentheses may be open at once. -/
def maxNesting : Nat := 256

/-- An expression with its number of levels, which is counted as the expression is made. -/
structure Measured where
  expr : Expr
  depth : Nat
  depth_eq : depth = expr.depth

namespace Measured

def leaf (c : Comparison) : Measured := ⟨.leaf c, 1, (depth_leaf c).symm⟩

def join (connective : Connective) (l r : Measured) : Measured :=
  ⟨.join connective l.expr r.expr, max l.depth r.depth + 1, by
    rw [depth_join, l.depth_eq, r.depth_eq]⟩

def not (m : Measured) : Measured := ⟨.not m.expr, m.depth + 1, by rw [depth_not, m.depth_eq]⟩

end Measured

namespace Reader

/-- The most parentheses open at once and the most levels of an expression. -/
structure Limits where
  nesting : Nat
  depth : Nat

/-- An operator that waits for its right operand. -/
structure Pending where
  left : Measured
  operator : Token

/-- The operators that wait within one parenthesis, an OR around an AND around a NOT. -/
structure Frame where
  disjunction : Option Pending := none
  conjunction : Option Pending := none
  negation : Option Token := none

/-- What has been read since the last operator or parenthesis. -/
inductive Stage where
  | start
  | name (name : String)
  | operator (name : String) (operator : Operator)
  | operand (operand : Measured)

/-- The innermost frame, those around it from the inside out, and the stage within. -/
structure State where
  frame : Frame := {}
  outer : List Frame := []
  stage : Stage := .start

def unexpected (expected : Expected) (found : Token) : Except ParseError α :=
  .error ⟨found.position, expected, some found⟩

/-- The expression that an operator makes, unless it would be too deep. -/
def checked (limits : Limits) (operator : Token) (m : Measured) : Except ParseError Measured :=
  if limits.depth < m.depth then unexpected .shallowerTree operator else .ok m

def joined (limits : Limits) (connective : Connective) (right : Measured) :
    Option Pending → Except ParseError Measured
  | none => .ok right
  | some pending => checked limits pending.operator (.join connective pending.left right)

/-- Ends a comparison or a parenthesis: the NOT and the AND that wait for it take it. -/
def State.complete (limits : Limits) (s : State) (m : Measured) : Except ParseError State := do
  let m ← match s.frame.negation with
    | none => pure m
    | some operator => checked limits operator m.not
  let m ← joined limits .and m s.frame.conjunction
  return { s with frame := { disjunction := s.frame.disjunction }, stage := .operand m }

/-- Takes one more token. -/
def State.step (limits : Limits) (s : State) (t : Token) : Except ParseError State :=
  match s.stage with
  | .start =>
    match t.kind with
    | .not =>
      if s.frame.negation.isSome then unexpected .operand t
      else .ok { s with frame := { s.frame with negation := some t } }
    | .opening =>
      if limits.nesting ≤ s.outer.length then unexpected .shallowerNesting t
      else .ok { frame := {}, outer := s.frame :: s.outer, stage := .start }
    | .identifier name => .ok { s with stage := .name name }
    | _ => unexpected .operand t
  | .name name =>
    match t.kind with
    | .comparison operator => .ok { s with stage := .operator name operator }
    | _ => unexpected .operator t
  | .operator name operator =>
    match t.kind with
    | .literal value => s.complete limits (.leaf ⟨name, operator, value⟩)
    | _ => unexpected .literal t
  | .operand m =>
    match t.kind with
    | .connective .and =>
      .ok { s with frame := { s.frame with conjunction := some ⟨m, t⟩ }, stage := .start }
    | .connective .or => do
      let m ← joined limits .or m s.frame.disjunction
      return { s with frame := { disjunction := some ⟨m, t⟩ }, stage := .start }
    | kind => do
      let m ← joined limits .or m s.frame.disjunction
      match s.outer, kind with
      | frame :: outer, .closing => State.complete limits { frame, outer, stage := .start } m
      | _ :: _, _ => unexpected .closing t
      | [], _ => unexpected .nothing t

/-- Ends the reading at a place. -/
def State.finish (limits : Limits) (position : Nat) (s : State) : Except ParseError Measured :=
  let missing (expected : Expected) := .error ⟨position, expected, none⟩
  match s.stage with
  | .start => missing .operand
  | .name _ => missing .operator
  | .operator _ _ => missing .literal
  | .operand m => do
    let m ← joined limits .or m s.frame.disjunction
    if s.outer.isEmpty then .ok m else missing .closing

/-- Reads a list of tokens to its end. -/
def read (limits : Limits) (tokens : List Token) : Except ParseError Expr :=
  match tokens.getLast? with
  | none => .error ⟨0, .rule, none⟩
  | some last => do
    let s ← tokens.foldlM (State.step limits) {}
    return (← s.finish limits last.stop).expr

end Reader

/-- The expression that a list of tokens spells. -/
def ofTokens (tokens : List Token) : Except ParseError Expr :=
  Reader.read ⟨maxNesting, maxDepth⟩ tokens

end Expr

def Expected.text : Expected → String
  | rule => "rule expression"
  | operand => "attribute name or '('"
  | operator => "comparison operator"
  | literal => "literal value"
  | closing => "')'"
  | nothing => "AND, OR or end of input"
  | shallowerNesting => s!"at most {Expr.maxNesting} nested parentheses"
  | shallowerTree => s!"at most {Expr.maxDepth} levels of operators"

def ParseError.foundText (e : ParseError) : String :=
  match e.found with
  | none => "end of input"
  | some token => token.describe

def ParseError.message (e : ParseError) : String :=
  s!"expected {e.expected.text} at position {e.position}, found {e.foundText}"

/-- Why a text is not a rule. -/
inductive RuleTextError where
  | lexical (error : LexError)
  | grammatical (error : ParseError)
  deriving DecidableEq

/-- The expression that a text spells. -/
def Expr.parse (text : String) : Except RuleTextError Expr :=
  match Token.scan text with
  | .error e => .error (.lexical e)
  | .ok tokens =>
    match ofTokens tokens with
    | .error e => .error (.grammatical e)
    | .ok e => .ok e

end Criteria
