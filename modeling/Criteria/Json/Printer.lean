import Criteria.Json.Basic

/-! Writing documents, without space between their parts. -/
namespace Criteria

/-- The text of a number. A whole one is its digits. Others have at least one digit after the
point where the first digit stands for at least `10 ^ (-5)` and less than `10 ^ 16`, and an
exponent elsewhere. -/
def Numeral.text (n : Numeral) : List Char :=
  let d := n.decimal
  signed n.negative <|
    if n.whole then Nat.toDigits 10 d.digits
    else if d.digits ≠ 0 ∧ (d.leading < -5 ∨ 16 ≤ d.leading) then d.scientific
    else if 0 ≤ d.exponent then d.positional ++ ['.', '0']
    else d.positional

namespace Json

/-- A character of a string. Quotes, backslashes and control characters are escaped. -/
def escape (c : Char) : List Char :=
  if c = '"' ∨ c = '\\' then ['\\', c]
  else if c = '\x08' then ['\\', 'b']
  else if c = '\t' then ['\\', 't']
  else if c = '\n' then ['\\', 'n']
  else if c = '\x0c' then ['\\', 'f']
  else if c = '\r' then ['\\', 'r']
  else if c.toNat < 0x20 then
    ['\\', 'u', '0', '0', Nat.digitChar (c.toNat / 16), Nat.digitChar (c.toNat % 16)]
  else [c]

def quote (text : String) : String := String.ofList ('"' :: text.toList.flatMap escape ++ ['"'])

mutual

/-- The text of a document. What has no meaning is written as null. -/
def text : Json → String
  | null | meaningless => "null"
  | boolean b => if b then "true" else "false"
  | number n => String.ofList n.text
  | string s => quote s
  | array items => "[" ++ itemsText items ++ "]"
  | object members => "\x7b" ++ membersText members ++ "\x7d"

def itemsText : List Json → String
  | [] => ""
  | [v] => v.text
  | v :: w :: rest => v.text ++ "," ++ itemsText (w :: rest)

def membersText : List (String × Json) → String
  | [] => ""
  | [(name, v)] => quote name ++ ":" ++ v.text
  | (name, v) :: w :: rest => quote name ++ ":" ++ v.text ++ "," ++ membersText (w :: rest)

end

end Json
end Criteria
