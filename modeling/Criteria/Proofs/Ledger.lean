import Criteria.Engine
import Criteria.Proofs.Combination

/-! An engine in its simplest form: a finite map from numbers to texts and expressions, and the next
number. It has no nodes and remembers no text, so it reads every text anew. Its actions change the
map in the order in which they are written, and a failure undoes nothing. -/
namespace Criteria

/-- A rule as its callers see it. -/
structure Rule.View where
  id : RuleId
  source : String
  expr : Expr
  canonical : String

def Rule.view (r : Rule) : Rule.View := ⟨r.id, r.source, r.node.expr, r.canonical⟩

/-- A reply as the callers see it. -/
inductive Reply.View where
  | done
  | rule (rule : Rule.View)
  | rules (rules : List Rule.View)
  | expr (expr : Expr)
  | verdict (holds : Bool)
  | names (names : List String)

def Reply.view : Reply → Reply.View
  | done => .done
  | rule r => .rule r.view
  | rules rs => .rules (rs.map Rule.view)
  | node n => .expr n.expr
  | verdict holds => .verdict holds
  | names ns => .names ns

/-- What is kept of a rule under its number. -/
structure Ledger.Entry where
  source : String
  expr : Expr

structure Ledger where
  settings : Settings
  entries : Std.TreeMap RuleId Ledger.Entry := {}
  next : RuleId := 1

namespace Ledger

def Entry.view (id : RuleId) (entry : Entry) : Rule.View :=
  ⟨id, entry.source, entry.expr, entry.expr.text⟩

/-- The rules by ascending numbers. -/
def list (l : Ledger) : List Rule.View := l.entries.toList.map fun (id, entry) => entry.view id

/-- A computation that may fail and changes the ledger as it goes on. -/
abbrev Bookkeeping := ExceptT Fault (StateM Ledger)

namespace Bookkeeping

def read (text : String) : Bookkeeping Expr := (Expr.parse text).mapError Fault.text

def find (id : RuleId) : Bookkeeping Entry := do
  match (← get).entries[id]? with
  | some entry => return entry
  | none => throw (.store (.notFound id))

/-- Keeps a text and its expression under the next number. -/
def insert (source : String) (e : Expr) : Bookkeeping Rule.View := do
  let id := (← get).next
  modify fun l => { l with entries := l.entries.insert id ⟨source, e⟩ }
  modify fun l => { l with next := id + 1 }
  return Entry.view id ⟨source, e⟩

def replace (id : RuleId) (source : String) (e : Expr) : Bookkeeping Rule.View := do
  let _ ← find id
  modify fun l => { l with entries := l.entries.insert id ⟨source, e⟩ }
  return Entry.view id ⟨source, e⟩

def delete (id : RuleId) : Bookkeeping Unit := do
  let _ ← find id
  modify fun l => { l with entries := l.entries.erase id }

def create (text : String) : Bookkeeping Rule.View := do
  let e ← read text
  insert text e

def change (id : RuleId) (text : String) : Bookkeeping Rule.View := do
  let e ← read text
  replace id text e

def combine (rules : List Expr) (strategy : Option Strategy) : Bookkeeping Expr := do
  let settings := (← get).settings
  (Expr.combine rules (strategy.getD settings.strategy) settings.deduplicate).mapError
    Fault.combine

def combineRules (ids : List RuleId) (strategy : Option Strategy) : Bookkeeping Expr := do
  let entries ← ids.mapM find
  combine (entries.map Entry.expr) strategy

def combineLines (text : String) (strategy : Option Strategy) : Bookkeeping Expr := do
  let rules ← (Text.filledLines text).mapM read
  combine rules strategy

def saveCombined (ids : List RuleId) (strategy : Option Strategy) : Bookkeeping Rule.View := do
  let e ← combineRules ids strategy
  insert e.text e

def evaluate (e : Expr) (record : Record) : Bookkeeping Bool := do
  let settings := (← get).settings
  (e.evaluate settings.ordering record).mapError Fault.evaluation

def evaluateRule (id : RuleId) (record : Record) : Bookkeeping Bool := do
  let entry ← find id
  evaluate entry.expr record

def evaluateRuleJson (id : RuleId) (text : String) : Bookkeeping Bool := do
  let record ← Record.ofJsonText text
  evaluateRule id record

def evaluateText (text : String) (record : Record) : Bookkeeping Bool := do
  let e ← read text
  evaluate e record

def attributes (id : RuleId) : Bookkeeping (List String) := do
  let entry ← find id
  return entry.expr.attributes

end Bookkeeping

open Bookkeeping in
/-- Answers a call. -/
def answer : Request → Bookkeeping Reply.View
  | .create text => do return .rule (← create text)
  | .get id => do return .rule ((← find id).view id)
  | .modify id text => do return .rule (← change id text)
  | .delete id => do
    delete id
    return .done
  | .list => do return .rules (← get).list
  | .combineRules ids strategy => do return .expr (← combineRules ids strategy)
  | .combineLines text strategy => do return .expr (← combineLines text strategy)
  | .saveCombined ids strategy => do return .rule (← saveCombined ids strategy)
  | .evaluateRule id record => do return .verdict (← evaluateRule id record)
  | .evaluateRuleJson id text => do return .verdict (← evaluateRuleJson id text)
  | .evaluateText text record => do return .verdict (← evaluateText text record)
  | .evaluateNode node record => do return .verdict (← evaluate node.expr record)
  | .attributes id => do return .names (← attributes id)

/-- Answers a call and goes on with the ledger that it leaves. -/
def serve (l : Ledger) (request : Request) : Except Fault Reply.View × Ledger :=
  (answer request).run l

/-- The ledger after some calls. -/
def after (settings : Settings) (requests : List Request) : Ledger :=
  requests.foldl (fun l request => (l.serve request).2) { settings }

end Ledger
end Criteria
