/-! Words, the blanks between them, and lines. Blanks separate the words of a rule and are trimmed
from the ends of a line, and both use the one notion here. Some words are keywords. -/
namespace Criteria.Text

/-- The characters with the property of being white space. -/
def isBlank (c : Char) : Bool :=
  let n := c.toNat
  (9 ≤ n && n ≤ 13) || n == 0x20 || n == 0x85 || n == 0xA0 || n == 0x1680 ||
    (0x2000 ≤ n && n ≤ 0x200A) || n == 0x2028 || n == 0x2029 || n == 0x202F || n == 0x205F ||
    n == 0x3000

def trimChars (cs : List Char) : List Char :=
  ((cs.dropWhile isBlank).reverse.dropWhile isBlank).reverse

def trim (text : String) : String := String.ofList (trimChars text.toList)

/-- The lines of a text that hold more than blanks, each without the blanks around it. -/
def filledLines (text : String) : List String :=
  ((text.toList.splitOn '\n').map trimChars).filter (!·.isEmpty) |>.map String.ofList

/-- Letters from `a` to `z` become capitals. No other character changes. -/
def capitals (text : String) : String := String.ofList (text.toList.map Char.toUpper)

def isWordStart (c : Char) : Bool := c.isAlpha || c == '_'

def isWordChar (c : Char) : Bool := c.isAlphanum || c == '_'

inductive Keyword where
  | and
  | or
  | not
  | true
  | false
  deriving DecidableEq

/-- The keyword that a word spells in any mix of small letters and capitals. -/
def keyword? (word : String) : Option Keyword :=
  match capitals word with
  | "AND" => some .and
  | "OR" => some .or
  | "NOT" => some .not
  | "TRUE" => some .true
  | "FALSE" => some .false
  | _ => none

/-- Whether a text is one word and no keyword, so that it can name an attribute. -/
def isName (text : String) : Bool :=
  match text.toList with
  | [] => false
  | c :: cs => isWordStart c && cs.all isWordChar && (keyword? text).isNone

end Criteria.Text
