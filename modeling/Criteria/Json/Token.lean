import Criteria.Json.Basic

/-! Splitting JSON text into tokens. -/
namespace Criteria.Json

inductive Token where
  | openArray
  | closeArray
  | openObject
  | closeObject
  | colon
  | comma
  | string (text : Option String)
  | value (value : Json)

namespace Token

/-- A character of a string, or half of one above U+FFFF. -/
inductive Piece where
  | char (c : Char)
  | half (code : Nat)

/-- The value of hexadecimal digits, in small letters or capitals. -/
def hexadecimal? (digits : List Char) : Option Nat :=
  digits.foldlM (fun total c =>
    if c.isDigit then some (total * 16 + (c.toNat - '0'.toNat))
    else if 'a' ≤ c ∧ c ≤ 'f' then some (total * 16 + (c.toNat - 'a'.toNat + 10))
    else if 'A' ≤ c ∧ c ≤ 'F' then some (total * 16 + (c.toNat - 'A'.toNat + 10))
    else none) 0

def Piece.ofCode (code : Nat) : Piece :=
  if 0xD800 ≤ code ∧ code ≤ 0xDFFF then .half code else .char (Char.ofNat code)

/-- The character that a letter after a backslash stands for. -/
def escaped? (c : Char) : Option Char :=
  if c = '"' ∨ c = '\\' ∨ c = '/' then some c
  else if c = 'b' then some '\x08'
  else if c = 'f' then some '\x0c'
  else if c = 'n' then some '\n'
  else if c = 'r' then some '\r'
  else if c = 't' then some '\t'
  else none

/-- The piece that begins with `c`, as far as `cs` goes on, and how many characters it takes from
`cs`. -/
def piece? (c : Char) (cs : List Char) : Option (Piece × Nat) :=
  if c.toNat < 0x20 then none
  else if c ≠ '\\' then some (.char c, 0)
  else
    match cs with
    | 'u' :: h :: i :: j :: k :: _ =>
      (hexadecimal? [h, i, j, k]).map fun code => (.ofCode code, 5)
    | e :: _ => (escaped? e).map fun c => (.char c, 1)
    | [] => none

/-- Reads what follows an opening quote, to the closing one, and counts the characters read. -/
def pieces? : List Char → Option (List Piece × Nat)
  | [] => none
  | c :: cs =>
    if c = '"' then some ([], 1)
    else
      match piece? c cs with
      | none => none
      | some (piece, n) =>
        (pieces? (cs.drop n)).map fun (pieces, taken) => (piece :: pieces, n + 1 + taken)
termination_by cs => cs.length
decreasing_by simp only [List.length_drop, List.length_cons]; omega

/-- The text of the pieces. A half has to be a high one, with a low one after it. -/
def text? : List Piece → Option (List Char)
  | [] => some []
  | .char c :: ps => (text? ps).map (c :: ·)
  | .half high :: .half low :: ps =>
    if high < 0xDC00 ∧ 0xDC00 ≤ low then
      (text? ps).map (Char.ofNat (0x10000 + (high - 0xD800) * 0x400 + (low - 0xDC00)) :: ·)
    else none
  | .half _ :: _ => none

/-- The digits of a whole part, which begins with zero only if it is zero. -/
def whole? (cs : List Char) : Option (List Char) :=
  let digits := cs.takeWhile Char.isDigit
  match digits with
  | [] => none
  | d :: ds => if d = '0' ∧ ds ≠ [] then none else some digits

/-- The digits after a point, and how many characters they and the point take. -/
def fraction? (cs : List Char) : Option (List Char × Nat) :=
  match cs with
  | '.' :: rest =>
    let digits := rest.takeWhile Char.isDigit
    if digits.isEmpty then none else some (digits, digits.length + 1)
  | _ => some ([], 0)

/-- The exponent, and how many characters it takes. -/
def exponent? (cs : List Char) : Option (Int × Nat) :=
  let digits (negative : Bool) (taken : Nat) (cs : List Char) : Option (Int × Nat) :=
    let digits := cs.takeWhile Char.isDigit
    let size : Int := Nat.ofDigitChars 10 digits 0
    if digits.isEmpty then none
    else some (if negative then -size else size, taken + digits.length)
  match cs with
  | c :: rest =>
    if c = 'e' ∨ c = 'E' then
      match rest with
      | '-' :: rest => digits true 2 rest
      | '+' :: rest => digits false 2 rest
      | _ => digits false 1 rest
    else some (0, 0)
  | [] => some (0, 0)

/-- Reads a numeral behind its sign, and counts the characters read. -/
def numeral? (negative : Bool) (cs : List Char) : Option (Numeral × Nat) := do
  let whole ← whole? cs
  let cs := cs.drop whole.length
  let (fraction, taken) ← fraction? cs
  let (exponent, taken') ← exponent? (cs.drop taken)
  let decimal := ⟨Nat.ofDigitChars 10 (whole ++ fraction) 0, exponent - fraction.length⟩
  return (⟨negative, decimal, taken + taken' == 0⟩, whole.length + taken + taken')

def number (n : Numeral) : Token := value (if n.value.isFinite then .number n else .meaningless)

/-- The token that begins with `c`, as far as `cs` goes on, and how many characters it takes from
`cs`. -/
def lexeme? (c : Char) (cs : List Char) : Option (Token × Nat) :=
  let word (rest : String) (v : Json) : Option (Token × Nat) :=
    if rest.toList.isPrefixOf cs then some (value v, rest.length) else none
  if c = '[' then some (openArray, 0)
  else if c = ']' then some (closeArray, 0)
  else if c = '\x7b' then some (openObject, 0)
  else if c = '\x7d' then some (closeObject, 0)
  else if c = ':' then some (colon, 0)
  else if c = ',' then some (comma, 0)
  else if c = '"' then
    (pieces? cs).map fun (ps, n) => (string ((text? ps).map String.ofList), n)
  else if c = '-' then (numeral? true cs).map fun (n, taken) => (number n, taken)
  else if c.isDigit then
    (numeral? false (c :: cs)).map fun (n, taken) => (number n, taken - 1)
  else if c = 'n' then word "ull" .null
  else if c = 't' then word "rue" (.boolean true)
  else if c = 'f' then word "alse" (.boolean false)
  else none

def isSpace (c : Char) : Bool := c == ' ' || c == '\t' || c == '\n' || c == '\r'

def scan? : List Char → Option (List Token)
  | [] => some []
  | c :: cs =>
    if isSpace c then scan? cs
    else
      match lexeme? c cs with
      | none => none
      | some (token, n) => (scan? (cs.drop n)).map (token :: ·)
termination_by cs => cs.length
decreasing_by all_goals (simp only [List.length_drop, List.length_cons]; omega)

end Token
end Criteria.Json
