/-! String literals of rules: the text between quotes, with a backslash in front of each quote and
each backslash in it. -/
namespace Criteria.Text.Quoted

/-- Whether a backslash in front of a character makes it a part of the text. -/
def isEscapable (c : Char) : Bool := c == '"' || c == '\\'

def escape : List Char → List Char
  | [] => []
  | c :: cs => if isEscapable c then '\\' :: c :: escape cs else c :: escape cs

def write (text : String) : String := String.ofList ('"' :: escape text.toList ++ ['"'])

/-- Reads what follows an opening quote, to the closing one. The result is the text and the number
of characters read, the closing quote included. A backslash is `pending` until the next character
is seen: if that cannot be escaped, the backslash stands for itself. -/
def readFrom (pending : Bool) : List Char → Option (List Char × Nat)
  | [] => none
  | c :: cs =>
    if pending then
      (readFrom false cs).map fun (text, n) =>
        (if isEscapable c then c :: text else '\\' :: c :: text, n + 1)
    else if c = '"' then some ([], 1)
    else if c = '\\' then (readFrom true cs).map fun (text, n) => (text, n + 1)
    else (readFrom false cs).map fun (text, n) => (c :: text, n + 1)

def read : List Char → Option (List Char × Nat) := readFrom false

end Criteria.Text.Quoted
