import Criteria.Fault

/-! The nodes of texts that were read before. A text that is read again has the node it had, as
long as that is remembered. -/
namespace Criteria

/-- What outlives a call: the nodes of texts already read, and the next identity. -/
structure Memory where
  known : Std.HashMap String Node := {}
  fresh : Nat := 0

namespace Memory

/-- How many texts are remembered before all of them are forgotten. -/
def capacity : Nat := 4096

def size (m : Memory) : Nat := m.known.size

def clear (m : Memory) : Memory := { m with known := {} }

/-- The memory with one more text in it. A full one first forgets all that it holds. -/
def remember (m : Memory) (text : String) (node : Node) (fresh : Nat) : Memory :=
  let known := if m.known.size < capacity then m.known else {}
  ⟨known.insert text node, fresh⟩

/-- The node of a text. Only a text that can be read is remembered. -/
def read (m : Memory) (text : String) : Except RuleTextError Node × Memory :=
  match m.known[text]? with
  | some node => (.ok node, m)
  | none =>
    match Expr.parse text with
    | .error e => (.error e, m)
    | .ok e =>
      let (node, fresh) := Node.ofExpr e m.fresh
      (.ok node, m.remember text node fresh)

end Memory

/-- A computation that may fail and uses the memory, which keeps its changes in either case. -/
abbrev Remembering := ExceptT Fault (StateM Memory)

namespace Remembering

/-- The node of a text. -/
def read (text : String) : Remembering Node := fun m =>
  match m.read text with
  | (.ok node, m) => (.ok node, m)
  | (.error e, m) => (.error (.text e), m)

def combine (nodes : List Node) (strategy : Strategy) (deduplicate : Bool) : Remembering Node :=
  fun m =>
    match Criteria.combine nodes strategy deduplicate m.fresh with
    | .ok (node, fresh) => (.ok node, { m with fresh })
    | .error e => (.error (.combine e), m)

end Remembering
end Criteria
