import Criteria.Expr.Reader
import Criteria.Rulebook
import Criteria.Settings

/-! All that can go wrong in a call of an engine, and the message of each. -/
namespace Criteria

/-- Why a record was refused. -/
inductive RecordError where
  | malformed
  | unsupported (name : String)
  deriving DecidableEq

def RecordError.message : RecordError → String
  | malformed => "not an object of scalars"
  | unsupported name => s!"unsupported value for attribute {name}"

inductive Fault where
  | text (error : RuleTextError)
  | combine (error : CombineError)
  | evaluation (error : EvalError)
  | store (error : StoreError)
  | invalid (defect : Defect)
  | record (error : RecordError)
  | malformedJson
  deriving DecidableEq

def Fault.message : Fault → String
  | text (.lexical e) => "Lex error: " ++ e.message
  | text (.grammatical e) => "Parse error: " ++ e.message
  | combine e => "Combine error: " ++ e.message
  | evaluation e => "Evaluation error: " ++ e.message
  | store e => "Store error: " ++ e.message
  | invalid d => "Invalid AST: " ++ d.message
  | record e => "Invalid record: " ++ e.message
  | malformedJson => "JSON error: malformed document"

def Expr.validate (e : Expr) : Except Fault Unit :=
  match e.defect? with
  | some d => .error (.invalid d)
  | none => .ok ()

/-- The valid expression that a JSON text holds. -/
def Expr.ofJsonText (text : String) : Except Fault Expr := do
  match Expr.parseJson? text with
  | none => .error .malformedJson
  | some e =>
    e.validate
    return e

def Record.ofJsonText (text : String) : Except Fault Record :=
  match Record.parse? text with
  | none => .error (.record .malformed)
  | some r => .ok r

end Criteria
