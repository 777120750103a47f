import Criteria.Json.Token

/-! Reading a document from its tokens, one token at a time. A state keeps the arrays and objects
that are open, so documents of any depth are read. -/
namespace Criteria.Json
namespace Reader

/-- An open array, or an open object at the value of one of its members. The newest part comes
first. An object loses its meaning with that of one of its names. -/
inductive Frame where
  | array (items : List Json)
  | object (members : Option (List (String × Json))) (name : Option String)

inductive Stage where
  /-- A value has to follow, or the end of an array that is still empty. -/
  | value (empty : Bool)
  /-- The name of a member has to follow, or the end of an object that is still empty. -/
  | name (members : Option (List (String × Json))) (empty : Bool)
  | colon (members : Option (List (String × Json))) (name : Option String)
  | complete (value : Json)

structure State where
  outer : List Frame := []
  stage : Stage := .value false

def member (members : Option (List (String × Json))) (name : Option String) (value : Json) :
    Option (List (String × Json)) :=
  match members, name with
  | some members, some name => some ((name, value) :: members)
  | _, _ => none

def closed (members : Option (List (String × Json))) : Json :=
  match members with
  | some members => object members.reverse
  | none => meaningless

/-- Takes one more token. -/
def State.step? (s : State) (t : Token) : Option State :=
  match s.stage, t with
  | .value _, .value v => some { s with stage := .complete v }
  | .value _, .string (some text) => some { s with stage := .complete (string text) }
  | .value _, .string none => some { s with stage := .complete meaningless }
  | .value _, .openArray => some ⟨.array [] :: s.outer, .value true⟩
  | .value _, .openObject => some { s with stage := .name (some []) true }
  | .value true, .closeArray =>
    match s.outer with
    | .array items :: outer => some ⟨outer, .complete (array items.reverse)⟩
    | _ => none
  | .name members _, .string name => some { s with stage := .colon members name }
  | .name members true, .closeObject => some { s with stage := .complete (closed members) }
  | .colon members name, .colon => some ⟨.object members name :: s.outer, .value false⟩
  | .complete v, .comma =>
    match s.outer with
    | .array items :: outer => some ⟨.array (v :: items) :: outer, .value false⟩
    | .object members name :: outer => some ⟨outer, .name (member members name v) false⟩
    | [] => none
  | .complete v, .closeArray =>
    match s.outer with
    | .array items :: outer => some ⟨outer, .complete (array (v :: items).reverse)⟩
    | _ => none
  | .complete v, .closeObject =>
    match s.outer with
    | .object members name :: outer =>
      some ⟨outer, .complete (closed (member members name v))⟩
    | _ => none
  | _, _ => none

def State.result? (s : State) : Option Json :=
  match s.outer, s.stage with
  | [], .complete v => some v
  | _, _ => none

end Reader

def ofTokens? (tokens : List Token) : Option Json := do
  let s ← tokens.foldlM Reader.State.step? {}
  s.result?

/-- The document that a text holds, with nothing but space around it. -/
def parse? (text : String) : Option Json := do
  let tokens ← Token.scan? text.toList
  ofTokens? tokens

end Criteria.Json
