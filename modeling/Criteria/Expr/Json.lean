import Criteria.Expr.Validity
import Criteria.Json.Printer
import Criteria.Json.Reader

/-! Expressions as documents. A node is written as an object that names its form and its parts. It
is read from such an object, with other members passed over, or from an array of the form and the
parts in their order. -/
namespace Criteria

def Scalar.toJson : Scalar → Json
  | .boolean b => .boolean b
  | .number x => .ofBinary64 x
  | .string s => .string s

def Scalar.ofJson? : Json → Option Scalar
  | .boolean b => some (.boolean b)
  | .number n => some (.number n.value)
  | .string s => some (.string s)
  | _ => none

def Operator.ofSymbol? : String → Option Operator
  | ">" => some .greater
  | "<" => some .less
  | ">=" => some .greaterEqual
  | "<=" => some .lessEqual
  | "=" => some .equal
  | "!=" => some .notEqual
  | _ => none

def Connective.ofWord? : String → Option Connective
  | "AND" => some .and
  | "OR" => some .or
  | _ => none

namespace Expr

def toJson : Expr → Json
  | leaf c => .object [("type", .string "comparison"), ("attribute", .string c.name),
      ("operator", .string c.operator.symbol), ("value", c.value.toJson)]
  | join o l r => .object [("type", .string "logical"), ("op", .string o.word),
      ("left", l.toJson), ("right", r.toJson)]
  | not e => .object [("type", .string "not"), ("operand", e.toJson)]

inductive Form where
  | comparison
  | logical
  | not

namespace Form

def parts : Form → List String
  | comparison => ["attribute", "operator", "value"]
  | logical => ["op", "left", "right"]
  | not => ["operand"]

/-- The form that a document names. Below the root its number will do. -/
def ofJson? (nested : Bool) : Json → Option Form
  | .string "comparison" => some comparison
  | .string "logical" => some logical
  | .string "not" => some not
  | .number n =>
    match nested, n.natural? with
    | true, some 0 => some comparison
    | true, some 1 => some logical
    | true, some 2 => some not
    | _, _ => none
  | _ => none

end Form

/-- The word that a document spells, by itself or as the name of an empty member. -/
def spelled? : Json → Option String
  | .string word => some word
  | .object [(word, .null)] => some word
  | .object [(word, .object [])] => some word
  | _ => none

/-- The document that names the form of a node. -/
def form? : Json → Option Json
  | .object members => Json.required? "type" members
  | .array (form :: _) => some form
  | _ => none

/-- The parts of a node, under their names or by their order. -/
def parts? (names : List String) : Json → Option (List Json)
  | .object members => names.mapM (Json.required? · members)
  | .array (_ :: items) => if items.length = names.length then some items else none
  | _ => none

/-- Reads a node that has at most so many levels. -/
def ofJsonWithin? : Nat → Bool → Json → Option Expr
  | 0, _, _ => none
  | levels + 1, nested, j => do
    let form ← Form.ofJson? nested (← form? j)
    match form, ← parts? form.parts j with
    | .comparison, [.string name, operator, value] =>
      return leaf ⟨name, ← Operator.ofSymbol? (← spelled? operator), ← Scalar.ofJson? value⟩
    | .logical, [connective, left, right] =>
      return join (← Connective.ofWord? (← spelled? connective))
        (← ofJsonWithin? levels true left) (← ofJsonWithin? levels true right)
    | .not, [operand] => return not (← ofJsonWithin? levels true operand)
    | _, _ => none

/-- Reads a document with at most so many levels. -/
def ofJson? (levels : Nat) (j : Json) : Option Expr :=
  if j.isReadable levels then ofJsonWithin? levels false j else none

/-- The expression that a JSON text holds, without a look at its validity. -/
def parseJson? (text : String) : Option Expr := do
  let j ← Json.parse? text
  ofJson? Json.maxLevels j

end Expr
end Criteria
