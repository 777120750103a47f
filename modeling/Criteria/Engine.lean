import Criteria.Memory

/-! An engine keeps rules, combines them and evaluates them. A call changes the engine in the order
of its steps, and a failure undoes none of the steps before it. -/
namespace Criteria

structure Engine where
  settings : Settings := {}
  rules : Rulebook := {}

namespace Engine

def ofSettings (settings : Settings) : Engine := { settings }

def find (e : Engine) (id : RuleId) : Except Fault Rule :=
  (e.rules.find id).mapError .store

def list (e : Engine) : List Rule := e.rules.toList

/-- Combines nodes as the settings say, where the call leaves it to them. -/
def combineNodes (e : Engine) (nodes : List Node) (strategy : Option Strategy) :
    Remembering Node :=
  Remembering.combine nodes (strategy.getD e.settings.strategy) e.settings.deduplicate

/-- Combines rules in the order of the call. -/
def combineRules (e : Engine) (ids : List RuleId) (strategy : Option Strategy) :
    Remembering Node := do
  let rules ← (ids.mapM e.find : Except Fault (List Rule))
  e.combineNodes (rules.map Rule.node) strategy

/-- Combines the lines of a text, each a rule. -/
def combineLines (e : Engine) (text : String) (strategy : Option Strategy) :
    Remembering Node := do
  let nodes ← (Text.filledLines text).mapM Remembering.read
  e.combineNodes nodes strategy

def evaluateNode (e : Engine) (node : Node) (record : Record) : Except Fault Bool :=
  (node.evaluate e.settings.ordering record).mapError .evaluation

def evaluateRule (e : Engine) (id : RuleId) (record : Record) : Except Fault Bool := do
  let rule ← e.find id
  e.evaluateNode rule.node record

/-- Evaluates a rule against the record that a JSON text holds. -/
def evaluateRuleJson (e : Engine) (id : RuleId) (text : String) : Except Fault Bool := do
  let record ← Record.ofJsonText text
  e.evaluateRule id record

/-- Evaluates a text without keeping it as a rule. -/
def evaluateText (e : Engine) (text : String) (record : Record) : Remembering Bool := do
  let node ← Remembering.read text
  e.evaluateNode node record

/-- The attributes that a rule reads. -/
def attributes (e : Engine) (id : RuleId) : Except Fault (List String) := do
  let rule ← e.find id
  return rule.node.expr.attributes

/-- A computation that may fail and changes the engine and the memory as it goes on. -/
abbrev Operation := ExceptT Fault (StateM (Engine × Memory))

/-- Asks the engine as it is, which stays so. What is asked of it may use the memory. -/
def ask {α : Type} (f : Engine → Remembering α) : Operation α := fun (e, m) =>
  let (result, m) := (f e).run m
  (result, e, m)

/-- Puts other rules in the place of those of the engine. -/
def setRules (rules : Rulebook) : Operation Unit := fun (e, m) => (.ok (), { e with rules }, m)

/-- Keeps a rule under the next number. -/
def insert (source : String) (node : Node) : Operation Rule := do
  let e ← ask pure
  let (rule, rules) := e.rules.insert source node
  setRules rules
  return rule

/-- Puts a new text and node in the place of those of a rule. -/
def replace (id : RuleId) (source : String) (node : Node) : Operation Rule := do
  let e ← ask pure
  let (rule, rules) ← (e.rules.replace id source node).mapError Fault.store
  setRules rules
  return rule

/-- Takes a rule out. -/
def delete (id : RuleId) : Operation Unit := do
  let e ← ask pure
  let (_, rules) ← (e.rules.remove id).mapError Fault.store
  setRules rules

/-- Keeps a new rule of the given text. -/
def create (text : String) : Operation Rule := do
  let node ← ask fun _ => Remembering.read text
  insert text node

/-- Gives a rule another text. The text is read before the rule is looked for. -/
def modify (id : RuleId) (text : String) : Operation Rule := do
  let node ← ask fun _ => Remembering.read text
  replace id text node

/-- Keeps a combination as a new rule, whose text is the canonical one. -/
def saveCombined (ids : List RuleId) (strategy : Option Strategy) : Operation Rule := do
  let node ← ask fun e => e.combineRules ids strategy
  insert node.expr.text node

end Engine

/-- A call of an engine. -/
inductive Request where
  | create (text : String)
  | get (id : RuleId)
  | modify (id : RuleId) (text : String)
  | delete (id : RuleId)
  | list
  | combineRules (ids : List RuleId) (strategy : Option Strategy)
  | combineLines (text : String) (strategy : Option Strategy)
  | saveCombined (ids : List RuleId) (strategy : Option Strategy)
  | evaluateRule (id : RuleId) (record : Record)
  | evaluateRuleJson (id : RuleId) (text : String)
  | evaluateText (text : String) (record : Record)
  | evaluateNode (node : Node) (record : Record)
  | attributes (id : RuleId)

/-- What a call returns. -/
inductive Reply where
  | done
  | rule (rule : Rule)
  | rules (rules : List Rule)
  | node (node : Node)
  | verdict (holds : Bool)
  | names (names : List String)

namespace Engine

/-- Answers a call. -/
def answer : Request → Operation Reply
  | .create text => do return .rule (← create text)
  | .get id => do return .rule (← ask fun e => e.find id)
  | .modify id text => do return .rule (← modify id text)
  | .delete id => do
    delete id
    return .done
  | .list => do return .rules (← ask pure).list
  | .combineRules ids strategy => do return .node (← ask fun e => e.combineRules ids strategy)
  | .combineLines text strategy => do return .node (← ask fun e => e.combineLines text strategy)
  | .saveCombined ids strategy => do return .rule (← saveCombined ids strategy)
  | .evaluateRule id record => do return .verdict (← ask fun e => e.evaluateRule id record)
  | .evaluateRuleJson id text => do return .verdict (← ask fun e => e.evaluateRuleJson id text)
  | .evaluateText text record => do return .verdict (← ask fun e => e.evaluateText text record)
  | .evaluateNode node record => do return .verdict (← ask fun e => e.evaluateNode node record)
  | .attributes id => do return .names (← ask fun e => e.attributes id)

/-- Answers a call and goes on with the engine and the memory that it leaves. -/
def serve (e : Engine) (m : Memory) (request : Request) :
    Except Fault Reply × Engine × Memory :=
  (answer request).run (e, m)

end Engine
end Criteria
