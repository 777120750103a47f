import Criteria.Token.Basic
import Criteria.Text.Word

/-! Splitting rule text into tokens. Blanks separate tokens and are dropped, and each token takes
as many characters as it can. -/
namespace Criteria

inductive LexError.Cause where
  | unexpected (c : Char)
  | unterminated
  | outOfRange
  deriving DecidableEq

/-- The place where rule text stops being made of tokens. -/
structure LexError where
  position : Nat
  cause : LexError.Cause
  deriving DecidableEq

def LexError.message (e : LexError) : String :=
  match e.cause with
  | .unexpected c => s!"unexpected character '{c}' at position {e.position}"
  | .unterminated => s!"unterminated string literal starting at position {e.position}"
  | .outOfRange => s!"number literal at position {e.position} is out of range"

namespace Token

/-- The digits and the fraction at the front of a text. A point counts only before a digit. -/
def numeral (cs : List Char) : List Char × List Char :=
  let whole := cs.takeWhile Char.isDigit
  match cs.dropWhile Char.isDigit with
  | '.' :: d :: ds => (whole, if d.isDigit then (d :: ds).takeWhile Char.isDigit else [])
  | _ => (whole, [])

/-- A number of the given digits, and how many characters follow its first one. -/
def number (negative : Bool) (cs : List Char) : Except LexError.Cause (Kind × Nat) :=
  let (whole, fraction) := numeral cs
  let value := Decimal.toBinary64 negative
    ⟨Nat.ofDigitChars 10 (whole ++ fraction) 0, -(fraction.length : Int)⟩
  let length := whole.length + if fraction.isEmpty then 0 else fraction.length + 1
  if value.isFinite then .ok (.literal (.number value), if negative then length else length - 1)
  else .error .outOfRange

def word (text : String) : Kind :=
  match Text.keyword? text with
  | some .and => .connective .and
  | some .or => .connective .or
  | some .not => .not
  | some .true => .literal (.boolean true)
  | some .false => .literal (.boolean false)
  | none => .identifier text

/-- The token that begins with `c`, as far as `cs` goes on, and how many characters it takes from
`cs`. -/
def lexeme (c : Char) (cs : List Char) : Except LexError.Cause (Kind × Nat) :=
  let equals := cs.head? == some '='
  if c = '(' then .ok (.opening, 0)
  else if c = ')' then .ok (.closing, 0)
  else if c = '>' then
    .ok (if equals then (.comparison .greaterEqual, 1) else (.comparison .greater, 0))
  else if c = '<' then
    .ok (if equals then (.comparison .lessEqual, 1) else (.comparison .less, 0))
  else if c = '=' then .ok (.comparison .equal, 0)
  else if c = '!' then
    if equals then .ok (.comparison .notEqual, 1) else .error (.unexpected c)
  else if c = '"' then
    match Text.Quoted.read cs with
    | some (value, n) => .ok (.literal (.string (String.ofList value)), n)
    | none => .error .unterminated
  else if c = '-' ∧ (cs.head?.any Char.isDigit) then number true cs
  else if c.isDigit then number false (c :: cs)
  else if Text.isWordStart c then
    let rest := cs.takeWhile Text.isWordChar
    .ok (word (String.ofList (c :: rest)), rest.length)
  else .error (.unexpected c)

/-- The tokens of a text that begins at a place of a longer one. -/
def scanFrom (position : Nat) : List Char → Except LexError (List Token)
  | [] => .ok []
  | c :: cs =>
    if Text.isBlank c then scanFrom (position + 1) cs
    else
      match lexeme c cs with
      | .error cause => .error ⟨position, cause⟩
      | .ok (kind, n) =>
        match scanFrom (position + n + 1) (cs.drop n) with
        | .error e => .error e
        | .ok rest => .ok (⟨kind, String.ofList (c :: cs.take n), position⟩ :: rest)
termination_by cs => cs.length
decreasing_by all_goals (simp only [List.length_drop, List.length_cons]; omega)

def scan (text : String) : Except LexError (List Token) := scanFrom 0 text.toList

end Token
end Criteria
