import Criteria.Combination

/-! The settings of an engine and their form as a document. -/
namespace Criteria

structure Settings where
  /-- The strategy of a combination that does not name one. -/
  strategy : Strategy := .any
  /-- Whether a combination shares its equal parts. -/
  deduplicate : Bool := true
  ordering : StringOrdering := .reject
  deriving DecidableEq

def StringOrdering.name : StringOrdering → String
  | reject => "REJECT"
  | lexicographic => "LEXICOGRAPHIC"

namespace Settings

def toJson (s : Settings) : Json := .object [("default_strategy", .string s.strategy.name),
  ("deduplicate", .boolean s.deduplicate), ("string_ordering", .string s.ordering.name)]

/-- The word that a document spells, by itself or as the name of a null member. -/
def word? : Json → Option String
  | .string word => some word
  | .object [(word, .null)] => some word
  | _ => none

def strategy? (j : Json) : Option Strategy :=
  match word? j with
  | some "ANY" | some "any" => some .any
  | some "ALL" | some "all" => some .all
  | _ => none

def boolean? : Json → Option Bool
  | .boolean b => some b
  | _ => none

def ordering? (j : Json) : Option StringOrdering :=
  match word? j with
  | some "REJECT" | some "reject" => some .reject
  | some "LEXICOGRAPHIC" | some "lexicographic" => some .lexicographic
  | _ => none

/-- Reads the settings from the values given for each, of which there may be none but not two. -/
def ofValues? (strategies booleans orderings : List Json) : Option Settings := do
  let one {α : Type} (default : α) (read : Json → Option α) : List Json → Option α
    | [] => some default
    | [j] => read j
    | _ => none
  let default : Settings := {}
  return ⟨← one default.strategy strategy? strategies,
    ← one default.deduplicate boolean? booleans, ← one default.ordering ordering? orderings⟩

/-- Settings are an object or an array of their values in order. What is left out at the end of an
array, or anywhere in an object, takes its default. Other members are passed over. -/
def ofJson? : Json → Option Settings
  | .object members => ofValues? (Json.valuesAt "default_strategy" members)
      (Json.valuesAt "deduplicate" members) (Json.valuesAt "string_ordering" members)
  | .array items =>
    if items.length ≤ 3 then
      ofValues? (items.take 1) ((items.drop 1).take 1) ((items.drop 2).take 1)
    else none
  | _ => none

def parse? (text : String) : Option Settings := do
  let j ← Json.parse? text
  ofJson? j

end Settings
end Criteria
