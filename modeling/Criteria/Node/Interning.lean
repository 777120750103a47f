import Criteria.Node.Basic
import Std.Data.HashMap

/-! Interning: all nodes of equal structure are replaced by one of them, the first that was met.
Parts are interned before the whole, so the identities of its parts stand for their structure. -/
namespace Criteria

/-- What two nodes with interned parts have in common exactly if they are equal. The literal of a
leaf has lost the sign of a zero. -/
inductive Shape where
  | leaf (name : String) (operator : Operator) (value : Scalar)
  | join (connective : Connective) (left right : Nat)
  | not (operand : Nat)
  deriving DecidableEq, Hashable

def Scalar.unsignedZero : Scalar → Scalar
  | .number x => .number x.unsignedZero
  | s => s

def Shape.ofComparison (c : Comparison) : Shape := leaf c.name c.operator c.value.unsignedZero

structure Interner where
  /-- The representative of each shape. -/
  table : Std.HashMap Shape Node := {}
  /-- The representative of each node that was interned. -/
  visited : Std.HashMap Nat Node := {}
  /-- How many nodes were given a representative that was already there. -/
  reused : Nat := 0
  /-- The next identity for a node that has to be built. -/
  fresh : Nat

namespace Interner

/-- The number of different structures met. -/
def unique (s : Interner) : Nat := s.table.size

/-- Gives the node `visited` the representative of a shape. If there is none, `build` makes it, from
the next identity. -/
def represent (s : Interner) (visited : Nat) (shape : Shape) (build : Nat → Node × Nat) :
    Node × Interner :=
  match s.table[shape]? with
  | some known =>
    (known, { s with visited := s.visited.insert visited known, reused := s.reused + 1 })
  | none =>
    let (node, fresh) := build s.fresh
    (node, { s with
      table := s.table.insert shape node
      visited := s.visited.insert visited node
      fresh })

/-- The representative of a node. A node whose parts represent themselves is not built again. -/
def intern : Node → Interner → Node × Interner
  | .leaf id c, s =>
    match s.visited[id]? with
    | some known => (known, s)
    | none => s.represent id (.ofComparison c) fun fresh => (.leaf id c, fresh)
  | .join id o left right, s =>
    match s.visited[id]? with
    | some known => (known, s)
    | none =>
      let (l, s) := intern left s
      let (r, s) := intern right s
      s.represent id (.join o l.id r.id) fun fresh =>
        if l.id = left.id ∧ r.id = right.id then (.join id o left right, fresh)
        else (.join fresh o l r, fresh + 1)
  | .not id operand, s =>
    match s.visited[id]? with
    | some known => (known, s)
    | none =>
      let (n, s) := intern operand s
      s.represent id (.not n.id) fun fresh =>
        if n.id = operand.id then (.not id operand, fresh) else (.not fresh n, fresh + 1)

end Interner

/-- Shares all equal parts of a node. The second result is the next identity. -/
def Node.deduplicate (root : Node) (fresh : Nat) : Node × Nat :=
  let (result, s) := Interner.intern root { fresh }
  (result, s.fresh)

end Criteria
