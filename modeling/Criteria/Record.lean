import Criteria.Expr.Json
import Std.Data.TreeMap.Lemmas

/-! Records: the attributes that a rule is evaluated against, in the order of their names. -/
namespace Criteria

structure Record where
  entries : Std.TreeMap String Scalar := {}

namespace Record

def empty : Record := {}

/-- Gives a value to an attribute, in place of any earlier one. -/
def insert (r : Record) (name : String) (value : Scalar) : Record :=
  ⟨r.entries.insert name value⟩

def get? (r : Record) (name : String) : Option Scalar := r.entries[name]?

def contains (r : Record) (name : String) : Bool := r.entries.contains name

def size (r : Record) : Nat := r.entries.size

def toList (r : Record) : List (String × Scalar) := r.entries.toList

/-- The record of some entries, later ones replacing earlier ones of the same name. -/
def ofList (entries : List (String × Scalar)) : Record :=
  entries.foldl (fun r entry => r.insert entry.1 entry.2) empty

def toJson (r : Record) : Json := .object (r.toList.map fun entry => (entry.1, entry.2.toJson))

/-- Reads an object whose members are all scalars. -/
def ofJson? : Json → Option Record
  | .object members => do
    let entries ← members.mapM fun member => (Scalar.ofJson? member.2).map (member.1, ·)
    return ofList entries
  | _ => none

def parse? (text : String) : Option Record := do
  let j ← Json.parse? text
  ofJson? j

theorem get?_insert (r : Record) (name : String) (value : Scalar) (other : String) :
    (r.insert name value).get? other = if name = other then some value else r.get? other := by
  simp only [get?, insert, Std.TreeMap.getElem?_insert, Std.compare_eq_iff_eq]

theorem contains_eq_isSome (r : Record) (name : String) :
    r.contains name = (r.get? name).isSome := by
  simp [contains, get?]

end Record
end Criteria
