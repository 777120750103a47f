import Criteria.Engine
import Criteria.Text.Display

/-! One engine behind calls from a script, whose arguments have no fixed type. There is no engine
until a call starts one, and starting another drops all rules of the one before. -/
namespace Criteria.Scripting

/-- A value of a script. Integers have any size. -/
inductive Value where
  | none
  | boolean (value : Bool)
  | integer (value : Int)
  | number (value : Binary64)
  | string (value : String)
  | bytes (value : List UInt8)
  | list (items : List Value)

/-- The entries of a dictionary, in their order. -/
abbrev Dictionary := List (Value × Value)

/-- Why a call failed: an argument of a wrong type or out of range, no engine, or a fault. -/
inductive Failure where
  | wrongType
  | outOfRange
  | notStarted
  | unknownOrdering (name : String)
  | fault (fault : Fault)
  deriving DecidableEq

/-- The classes of failures that a script tells apart. -/
inductive Failure.Class where
  | type
  | overflow
  | state
  | lookup
  | value
  deriving DecidableEq

namespace Failure

def category : Failure → Class
  | wrongType => .type
  | outOfRange => .overflow
  | notStarted => .state
  | unknownOrdering _ => .value
  | fault (.evaluation (.missing _)) => .lookup
  | fault (.store (.notFound _)) => .lookup
  | fault _ => .value

/-- The message of a failure. A refused argument has none of its own. -/
def message? : Failure → Option String
  | wrongType | outOfRange => none
  | notStarted => some "Engine not initialized. Call init_engine() first."
  | unknownOrdering name => some s!"Invalid string_ordering: {name}"
  | fault (.evaluation (.missing name)) => some s!"Attribute not found: {name}"
  | fault (.store (.notFound id)) => some s!"Rule not found: {id}"
  | fault f => some f.message

end Failure

namespace Value

def toText : Value → Except Failure String
  | string s => .ok s
  | _ => .error .wrongType

/-- A number of a rule. A boolean counts as one or zero. -/
def toRuleId : Value → Except Failure RuleId
  | integer i =>
    if 0 ≤ i ∧ i < UInt64.size then .ok (UInt64.ofNat i.toNat) else .error .outOfRange
  | boolean b => .ok (if b then 1 else 0)
  | _ => .error .wrongType

/-- Numbers of rules in a list, or bytes that are such numbers. -/
def toRuleIds : Value → Except Failure (List RuleId)
  | list items => items.mapM toRuleId
  | bytes value => .ok (value.map UInt8.toUInt64)
  | _ => .error .wrongType

def toOptionalText : Value → Except Failure (Option String)
  | none => .ok Option.none
  | string s => .ok (some s)
  | _ => .error .wrongType

def toBoolean : Value → Except Failure Bool
  | boolean b => .ok b
  | _ => .error .wrongType

/-- The scalar that a value is. An integer becomes the nearest number, if that is finite. -/
def toScalar? : Value → Option Scalar
  | boolean b => some (.boolean b)
  | integer i =>
    let x := Binary64.ofInt i
    if x.isFinite then some (.number x) else Option.none
  | number x => some (.number x)
  | string s => some (.string s)
  | _ => Option.none

end Value

/-- Adds an entry to a dictionary. A text that is there already keeps its place and gets the new
value. Keys of other types are kept apart, since none is ever looked up. -/
def addEntry (entries : Dictionary) (key value : Value) : Dictionary :=
  match key with
  | .string name =>
    let isName : Value → Bool
      | .string other => other == name
      | _ => false
    if entries.any fun entry => isName entry.1 then
      entries.map fun entry => if isName entry.1 then (entry.1, value) else entry
    else entries ++ [(key, value)]
  | _ => entries ++ [(key, value)]

def dictionary (pairs : List (Value × Value)) : Dictionary :=
  pairs.foldl (fun entries pair => addEntry entries pair.1 pair.2) []

def lookup? (name : String) (entries : Dictionary) : Option Value :=
  entries.findSome? fun entry =>
    match entry.1 with
    | .string other => if other = name then some entry.2 else none
    | _ => none

/-- Reads a record, entry by entry. -/
def toRecord (entries : Dictionary) : Except Failure Record :=
  entries.foldlM (fun record entry => do
    let name ← entry.1.toText
    match entry.2.toScalar? with
    | some value => return record.insert name value
    | none => .error (.fault (.record (.unsupported name)))) Record.empty

def toStrategy (text : String) : Except Failure Strategy :=
  (Strategy.parse text).mapError fun e => .fault (.combine e)

def toOrdering (text : String) : Except Failure StringOrdering :=
  match Text.capitals text with
  | "REJECT" => .ok .reject
  | "LEXICOGRAPHIC" => .ok .lexicographic
  | _ => .error (.unknownOrdering text)

/-- Reads the settings one after the other. Entries under other names are passed over. -/
def toSettings (entries : Dictionary) : Except Failure Settings := do
  let default : Settings := {}
  let strategy ← match lookup? "default_strategy" entries with
    | some value => toStrategy (← value.toText)
    | none => pure default.strategy
  let deduplicate ← match lookup? "deduplicate" entries with
    | some value => value.toBoolean
    | none => pure default.deduplicate
  let ordering ← match lookup? "string_ordering" entries with
    | some value => toOrdering (← value.toText)
    | none => pure default.ordering
  return ⟨strategy, deduplicate, ordering⟩

/-- A call from a script. One that is to be awaited is the same as `evaluate`: it reads its
arguments and asks for the engine alike, and is taken to be run at once. -/
inductive Call where
  | start (settings : Option Dictionary)
  | isStarted
  | create (text : Value)
  | get (id : Value)
  | modify (id text : Value)
  | list
  | delete (id : Value)
  | combine (ids strategy : Value)
  | saveCombined (ids strategy : Value)
  | evaluate (id : Value) (data : Dictionary)

inductive Answer where
  | nothing
  | boolean (value : Bool)
  | text (text : String)
  | rule (rule : Rule)
  | rules (rules : List Rule)
  | names (names : List String)

/-- A rule as a script shows it. -/
def showRule (r : Rule) : String := s!"Rule(id={r.id}, source_text={Text.display r.source})"

/-- The request that a call makes once its arguments are read, from left to right and each by its
type before any by its meaning. Calls that start an engine or ask for it make none. -/
def Call.toRequest? : Call → Except Failure (Option Request)
  | start _ | isStarted => return none
  | create text => return some (.create (← text.toText))
  | get id => return some (.get (← id.toRuleId))
  | modify id text => return some (.modify (← id.toRuleId) (← text.toText))
  | list => return some .list
  | delete id => return some (.delete (← id.toRuleId))
  | combine ids strategy => do
    let ids ← ids.toRuleIds
    let strategy ← strategy.toOptionalText
    return some (.combineRules ids (← strategy.mapM toStrategy))
  | saveCombined ids strategy => do
    let ids ← ids.toRuleIds
    let strategy ← strategy.toOptionalText
    return some (.saveCombined ids (← strategy.mapM toStrategy))
  | evaluate id data => do
    let id ← id.toRuleId
    return some (.evaluateRule id (← toRecord data))

/-- What a script gets of a reply. A combination is handed over as a document. -/
def Answer.ofReply : Reply → Answer
  | .done => nothing
  | .rule r => rule r
  | .rules rs => rules rs
  | .node n => text n.expr.toJson.text
  | .verdict b => boolean b
  | .names ns => names ns

structure Session where
  engine : Option Engine := none
  memory : Memory := {}

namespace Session

/-- A computation that may fail and changes the session as it goes on. -/
abbrev Conversation := ExceptT Failure (StateM Session)

/-- Runs an operation of the engine, if there is one. The session goes on with what the operation
leaves, be it that it fails. -/
def operate {α : Type} (x : Engine.Operation α) : Conversation α := fun s =>
  match s.engine with
  | none => (.error .notStarted, s)
  | some engine =>
    let (result, engine, memory) := x.run (engine, s.memory)
    (result.mapError .fault, ⟨some engine, memory⟩)

/-- Makes the request of a call, if it has one. -/
def perform : Option Request → Conversation Answer
  | none => return .nothing
  | some request => do return .ofReply (← operate (Engine.answer request))

/-- Answers a call. Its arguments are read first, then the engine is asked for. -/
def respond : Call → Conversation Answer
  | .isStarted => do return .boolean (← get).engine.isSome
  | .start settings => do
    let settings ← (settings.map toSettings).getD (.ok {})
    modify fun s => { s with engine := some (.ofSettings settings) }
    return .nothing
  | call => do
    let request ← call.toRequest?
    perform request

/-- Answers a call and goes on with the session that it leaves. -/
def answer (s : Session) (call : Call) : Except Failure Answer × Session := (respond call).run s

end Session
end Criteria.Scripting
