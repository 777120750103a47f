import Criteria.Combination
import Criteria.Expr.Printer

/-! A collection of rules under numbers, which are given out from one on and not used again. -/
namespace Criteria

abbrev RuleId := UInt64

/-- A rule that is kept: its text and the node that the text stands for. -/
structure Rule where
  id : RuleId
  source : String
  node : Node

inductive StoreError where
  | notFound (id : RuleId)
  deriving DecidableEq

def StoreError.message : StoreError → String
  | notFound id => s!"rule not found: {id}"

namespace Rule

def canonical (r : Rule) : String := r.node.expr.text

/-- Equality with literals compared by value. -/
def agrees (r s : Rule) : Bool :=
  r.id == s.id && r.source == s.source && r.node.expr.agrees s.node.expr

def toJson (r : Rule) : Json := .object [("id", .number (.ofNat r.id.toNat)),
  ("source_text", .string r.source), ("ast", r.node.expr.toJson)]

def id? : Json → Option RuleId
  | .number n =>
    match n.natural? with
    | some i => if i < UInt64.size then some (UInt64.ofNat i) else none
    | none => none
  | _ => none

/-- Reads the three parts of a rule. The document of the node lies one level below the rule's. -/
def ofParts? (id source node : Json) (fresh : Nat) : Option (Rule × Nat) := do
  let id ← id? id
  let e ← Expr.ofJson? (Json.maxLevels - 1) node
  let (node, fresh) := Node.ofExpr e fresh
  match source with
  | .string source => return (⟨id, source, node⟩, fresh)
  | _ => none

/-- A rule is an object, or an array of its parts in order. Its nodes are new. -/
def ofJson? (j : Json) (fresh : Nat) : Option (Rule × Nat) :=
  match j with
  | .object members => do
    ofParts? (← Json.required? "id" members) (← Json.required? "source_text" members)
      (← Json.required? "ast" members) fresh
  | .array [id, source, node] => ofParts? id source node fresh
  | _ => none

def parse? (text : String) (fresh : Nat) : Option (Rule × Nat) := do
  let j ← Json.parse? text
  ofJson? j fresh

end Rule

structure Rulebook where
  rules : Std.TreeMap RuleId Rule := {}
  next : RuleId := 1

namespace Rulebook

def empty : Rulebook := {}

/-- Keeps a rule under the next number. -/
def insert (b : Rulebook) (source : String) (node : Node) : Rule × Rulebook :=
  let rule : Rule := ⟨b.next, source, node⟩
  (rule, ⟨b.rules.insert b.next rule, b.next + 1⟩)

def get? (b : Rulebook) (id : RuleId) : Option Rule := b.rules[id]?

def find (b : Rulebook) (id : RuleId) : Except StoreError Rule :=
  match b.get? id with
  | some rule => .ok rule
  | none => .error (.notFound id)

/-- Puts a new text and node in the place of those of a rule. -/
def replace (b : Rulebook) (id : RuleId) (source : String) (node : Node) :
    Except StoreError (Rule × Rulebook) :=
  match b.get? id with
  | some _ =>
    let rule : Rule := ⟨id, source, node⟩
    .ok (rule, { b with rules := b.rules.insert id rule })
  | none => .error (.notFound id)

/-- Takes a rule out. -/
def remove (b : Rulebook) (id : RuleId) : Except StoreError (Rule × Rulebook) :=
  match b.get? id with
  | some rule => .ok (rule, { b with rules := b.rules.erase id })
  | none => .error (.notFound id)

/-- The rules in the order of their numbers. -/
def toList (b : Rulebook) : List Rule := b.rules.values

def size (b : Rulebook) : Nat := b.rules.size

end Rulebook
end Criteria
