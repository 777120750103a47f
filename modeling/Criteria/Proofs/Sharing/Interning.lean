import Criteria.Proofs.Sharing.Arena
import Criteria.Proofs.Zeros
import Std.Data.HashMap.Lemmas

/-! Interning keeps the expression of every node, up to the signs of zeros. A representative stands
in the table under its own shape, so nodes of one shape have the same representatives as parts. -/
namespace Criteria

/-- The shape that a node has as its own representative. -/
def Node.shape : Node → Shape
  | leaf _ c => .ofComparison c
  | join _ o l r => .join o l.id r.id
  | not _ n => .not n.id

namespace Interner

/-- Whether a node represents its shape. -/
def Keeps (s : Interner) (v : Node) : Prop := s.table[v.shape]? = some v

/-- What holds of the tables while nodes of an arena are interned. -/
structure Invariant (nodes : Set Node) (s : Interner) : Prop where
  arena : Node.Arena nodes s.fresh
  table : ∀ shape v, s.table[shape]? = some v →
    v.shape = shape ∧ v ∈ nodes ∧ ∀ m ∈ v.parts, s.Keeps m
  visited : ∀ id v, s.visited[id]? = some v →
    s.Keeps v ∧ ∃ n ∈ nodes, n.id = id ∧ v.expr.unsignedZeros = n.expr.unsignedZeros

/-- What interning a node results in: a representative of the same expression, in a larger arena,
with all earlier representatives kept. -/
def Interned (nodes : Set Node) (s : Interner) (n : Node) (result : Node × Interner) : Prop :=
  (∃ larger, nodes ⊆ larger ∧ Invariant larger result.2) ∧ result.2.Keeps result.1 ∧
    result.1.expr.unsignedZeros = n.expr.unsignedZeros ∧ ∀ m, s.Keeps m → result.2.Keeps m

variable {nodes : Set Node} {s : Interner} {n v : Node} {shape : Shape}

theorem Invariant.of_keeps (hs : Invariant nodes s) (hv : s.Keeps v) :
    v ∈ nodes ∧ ∀ m ∈ v.parts, s.Keeps m :=
  (hs.table v.shape v hv).2

theorem invariant_empty {fresh : ℕ} (h : Node.Arena nodes fresh) :
    Invariant nodes { fresh } :=
  ⟨h, by simp, by simp⟩

/-- A node that was met before has its representative already. -/
theorem Invariant.interned_of_visited (hs : Invariant nodes s) (hn : n ∈ nodes)
    (hv : s.visited[n.id]? = some v) : Interned nodes s n (v, s) := by
  obtain ⟨hkeeps, m, hm, hid, hexpr⟩ := hs.visited n.id v hv
  obtain rfl := hs.arena.unique m hm n hn hid
  exact ⟨⟨nodes, subset_rfl, hs⟩, hkeeps, hexpr, fun _ => id⟩

/-- A shape that has a representative gives it to one more node. -/
theorem Invariant.represent_known (hs : Invariant nodes s) (hn : n ∈ nodes)
    (hv : s.table[shape]? = some v) (hexpr : v.expr.unsignedZeros = n.expr.unsignedZeros)
    (build : ℕ → Node × ℕ) : Interned nodes s n (s.represent n.id shape build) := by
  have hkeeps : s.Keeps v := by rw [Keeps, (hs.table shape v hv).1, hv]
  simp only [represent, hv]
  refine ⟨⟨nodes, subset_rfl, hs.arena, hs.table, ?_⟩, hkeeps, hexpr, fun _ => id⟩
  intro id w hw
  rw [Std.HashMap.getElem?_insert] at hw
  split at hw
  · rename_i hid
    cases hw
    exact ⟨hkeeps, n, hn, beq_iff_eq.mp hid, hexpr⟩
  · exact hs.visited id w hw

/-- A shape that has no representative gets the one that is built. -/
theorem Invariant.represent_new (hs : Invariant nodes s) (hn : n ∈ nodes)
    (hnone : s.table[shape]? = none) {build : ℕ → Node × ℕ}
    (hshape : (build s.fresh).1.shape = shape) (hextends : Node.Extends nodes (build s.fresh))
    (hparts : ∀ m ∈ (build s.fresh).1.parts, s.Keeps m)
    (hexpr : (build s.fresh).1.expr.unsignedZeros = n.expr.unsignedZeros) :
    Interned nodes s n (s.represent n.id shape build) := by
  obtain ⟨larger, hlarger, harena, hmem⟩ := hextends
  simp only [represent, hnone]
  have hgrows : ∀ m, s.Keeps m → (s.table.insert shape (build s.fresh).1)[m.shape]? = some m := by
    intro m hm
    have hne : shape ≠ m.shape := by
      rintro rfl
      rw [Keeps, hnone] at hm
      cases hm
    rw [Std.HashMap.getElem?_insert, if_neg (by simpa using hne)]
    exact hm
  have hkeeps : (s.table.insert shape (build s.fresh).1)[(build s.fresh).1.shape]? =
      some (build s.fresh).1 := by
    rw [hshape, Std.HashMap.getElem?_insert_self]
  refine ⟨⟨larger, hlarger, harena, ?_, ?_⟩, hkeeps, hexpr, hgrows⟩
  · intro k w hw
    rw [Std.HashMap.getElem?_insert] at hw
    split at hw
    · rename_i hk
      cases hw
      exact ⟨hshape.trans (beq_iff_eq.mp hk), hmem, fun m hm => hgrows m (hparts m hm)⟩
    · obtain ⟨hk, hw, hm⟩ := hs.table k w hw
      exact ⟨hk, hlarger hw, fun m hmem => hgrows m (hm m hmem)⟩
  · intro id w hw
    rw [Std.HashMap.getElem?_insert] at hw
    split at hw
    · rename_i hid
      cases hw
      exact ⟨hkeeps, n, hlarger hn, beq_iff_eq.mp hid, hexpr⟩
    · obtain ⟨hk, m, hm, hid, he⟩ := hs.visited id w hw
      exact ⟨hgrows w hk, m, hlarger hm, hid, he⟩

/-- What was interned on the way to a state counts as interned before it. -/
theorem Interned.trans {larger : Set Node} {t : Interner} {result : Node × Interner}
    (hlarger : nodes ⊆ larger) (hgrows : ∀ m, s.Keeps m → t.Keeps m)
    (h : Interned larger t n result) : Interned nodes s n result := by
  obtain ⟨⟨all, hall, hinv⟩, hkeeps, hexpr, hlast⟩ := h
  exact ⟨⟨all, hlarger.trans hall, hinv⟩, hkeeps, hexpr, fun m hm => hlast m (hgrows m hm)⟩

theorem interned_leaf {id : ℕ} {c : Comparison} (hs : Invariant nodes s)
    (hn : .leaf id c ∈ nodes) : Interned nodes s (.leaf id c) (intern (.leaf id c) s) := by
  rw [intern]
  split
  · rename_i v hv
    exact hs.interned_of_visited hn hv
  · cases ht : s.table[Shape.ofComparison c]? with
    | some v =>
      refine hs.represent_known hn ht ?_ _
      have hshape := (hs.table _ v ht).1
      cases v with
      | leaf i d =>
        simp only [Node.shape, Shape.ofComparison, Shape.leaf.injEq] at hshape
        simp only [Node.expr, Expr.unsignedZeros, Comparison.unsignedZero, hshape]
      | join | not => cases hshape
    | none =>
      exact hs.represent_new hn ht rfl (hs.arena.extends_of_mem hn) (by simp [Node.parts]) rfl

/-- Whether a join had a representative or not, it is represented as the join of the representatives
of its parts. -/
theorem expr_represent_join {id : ℕ} {o : Connective} {left right l r : Node}
    (hs : Invariant nodes s) (hn : .join id o left right ∈ nodes) (hl : s.Keeps l)
    (hr : s.Keeps r) :
    (s.represent id (.join o l.id r.id) fun fresh =>
        if l.id = left.id ∧ r.id = right.id then (.join id o left right, fresh)
        else (.join fresh o l r, fresh + 1)).1.expr = .join o l.expr r.expr := by
  obtain ⟨hleft, hright⟩ := hs.arena.parts_join hn
  obtain ⟨hmeml, -⟩ := hs.of_keeps hl
  obtain ⟨hmemr, -⟩ := hs.of_keeps hr
  unfold represent
  split
  · rename_i v hv
    obtain ⟨hshape, hmem, -⟩ := hs.table _ v hv
    cases v with
    | join i p l' r' =>
      simp only [Node.shape, Shape.join.injEq] at hshape
      obtain ⟨rfl, hidl, hidr⟩ := hshape
      obtain ⟨hmeml', hmemr'⟩ := hs.arena.parts_join hmem
      obtain rfl := hs.arena.unique _ hmeml' _ hmeml hidl
      obtain rfl := hs.arena.unique _ hmemr' _ hmemr hidr
      rfl
    | leaf | not => cases hshape
  · by_cases hsame : l.id = left.id ∧ r.id = right.id
    · obtain rfl := hs.arena.unique _ hmeml _ hleft hsame.1
      obtain rfl := hs.arena.unique _ hmemr _ hright hsame.2
      simp [Node.expr]
    · simp [hsame, Node.expr]

theorem expr_represent_not {id : ℕ} {operand v : Node} (hs : Invariant nodes s)
    (hn : .not id operand ∈ nodes) (hv : s.Keeps v) :
    (s.represent id (.not v.id) fun fresh =>
        if v.id = operand.id then (.not id operand, fresh) else (.not fresh v, fresh + 1)).1.expr =
      .not v.expr := by
  have hoperand := hs.arena.part_not hn
  obtain ⟨hmem, -⟩ := hs.of_keeps hv
  unfold represent
  split
  · rename_i w hw
    obtain ⟨hshape, hw, -⟩ := hs.table _ w hw
    cases w with
    | not i v' =>
      simp only [Node.shape, Shape.not.injEq] at hshape
      obtain rfl := hs.arena.unique _ (hs.arena.part_not hw) _ hmem hshape
      rfl
    | leaf | join => cases hshape
  · by_cases hsame : v.id = operand.id
    · obtain rfl := hs.arena.unique _ hmem _ hoperand hsame
      simp [Node.expr]
    · simp [hsame, Node.expr]

/-- A join is represented by the shape that the representatives of its parts give it. -/
theorem interned_join {id : ℕ} {o : Connective} {left right l r : Node} (hs : Invariant nodes s)
    (hn : .join id o left right ∈ nodes) (hl : s.Keeps l) (hr : s.Keeps r)
    (hexprl : l.expr.unsignedZeros = left.expr.unsignedZeros)
    (hexprr : r.expr.unsignedZeros = right.expr.unsignedZeros) :
    Interned nodes s (.join id o left right)
      (s.represent id (.join o l.id r.id) fun fresh =>
        if l.id = left.id ∧ r.id = right.id then (.join id o left right, fresh)
        else (.join fresh o l r, fresh + 1)) := by
  have hjoin := expr_represent_join hs hn hl hr
  have hexpr : (Expr.join o l.expr r.expr).unsignedZeros =
      (Expr.join o left.expr right.expr).unsignedZeros := by
    simp only [Expr.unsignedZeros, hexprl, hexprr]
  cases ht : s.table[Shape.join o l.id r.id]? with
  | some v =>
    simp only [represent, ht] at hjoin
    exact hs.represent_known hn ht (by rw [hjoin, hexpr, Node.expr]) _
  | none =>
    simp only [represent, ht] at hjoin
    obtain ⟨hleft, hright⟩ := hs.arena.parts_join hn
    obtain ⟨hmeml, -⟩ := hs.of_keeps hl
    obtain ⟨hmemr, -⟩ := hs.of_keeps hr
    refine hs.represent_new hn ht ?_ ?_ ?_ (by rw [hjoin, hexpr, Node.expr])
    · split
      · rename_i hsame
        rw [Node.shape, hsame.1, hsame.2]
      · rfl
    · split
      · exact hs.arena.extends_of_mem hn
      · exact hs.arena.extends_insert rfl (by simp [Node.parts, hmeml, hmemr])
    · split
      · rename_i hsame
        obtain rfl := hs.arena.unique _ hmeml _ hleft hsame.1
        obtain rfl := hs.arena.unique _ hmemr _ hright hsame.2
        simp [Node.parts, hl, hr]
      · simp [Node.parts, hl, hr]

theorem interned_not {id : ℕ} {operand v : Node} (hs : Invariant nodes s)
    (hn : .not id operand ∈ nodes) (hv : s.Keeps v)
    (hexpr : v.expr.unsignedZeros = operand.expr.unsignedZeros) :
    Interned nodes s (.not id operand)
      (s.represent id (.not v.id) fun fresh =>
        if v.id = operand.id then (.not id operand, fresh) else (.not fresh v, fresh + 1)) := by
  have hnot := expr_represent_not hs hn hv
  have hexpr : (Expr.not v.expr).unsignedZeros = (Expr.not operand.expr).unsignedZeros := by
    simp only [Expr.unsignedZeros, hexpr]
  cases ht : s.table[Shape.not v.id]? with
  | some w =>
    simp only [represent, ht] at hnot
    exact hs.represent_known hn ht (by rw [hnot, hexpr, Node.expr]) _
  | none =>
    simp only [represent, ht] at hnot
    have hoperand := hs.arena.part_not hn
    obtain ⟨hmem, -⟩ := hs.of_keeps hv
    refine hs.represent_new hn ht ?_ ?_ ?_ (by rw [hnot, hexpr, Node.expr])
    · split
      · rename_i hsame
        rw [Node.shape, hsame]
      · rfl
    · split
      · exact hs.arena.extends_of_mem hn
      · exact hs.arena.extends_insert rfl (by simp [Node.parts, hmem])
    · split
      · rename_i hsame
        obtain rfl := hs.arena.unique _ hmem _ hoperand hsame
        simp [Node.parts, hv]
      · simp [Node.parts, hv]

/-- Interning a node of an arena gives it a representative of the same expression. -/
theorem interned_intern (n : Node) (hs : Invariant nodes s) (hn : n ∈ nodes) :
    Interned nodes s n (intern n s) := by
  induction n generalizing nodes s with
  | leaf id c => exact interned_leaf hs hn
  | join id o left right ihl ihr =>
    rw [intern]
    split
    · rename_i v hv
      exact hs.interned_of_visited hn hv
    · obtain ⟨hleft, hright⟩ := hs.arena.parts_join hn
      obtain ⟨⟨ls, hls, hinvl⟩, hkeepsl, hexprl, hgrowsl⟩ := ihl hs hleft
      obtain ⟨⟨rs, hrs, hinvr⟩, hkeepsr, hexprr, hgrowsr⟩ := ihr hinvl (hls hright)
      refine .trans (hls.trans hrs) (fun m hm => hgrowsr m (hgrowsl m hm)) ?_
      exact interned_join hinvr (hrs (hls hn)) (hgrowsr _ hkeepsl) hkeepsr hexprl hexprr
  | not id operand ih =>
    rw [intern]
    split
    · rename_i v hv
      exact hs.interned_of_visited hn hv
    · obtain ⟨⟨larger, hlarger, hinv⟩, hkeeps, hexpr, hgrows⟩ := ih hs (hs.arena.part_not hn)
      exact .trans hlarger hgrows (interned_not hinv (hlarger hn) hkeeps hexpr)

end Interner

namespace Node.Arena

variable {nodes : Set Node} {fresh : ℕ} {root : Node}

/-- Sharing the equal parts of a node keeps its expression, but for the signs of zeros. -/
theorem deduplicate (h : Arena nodes fresh) (hroot : root ∈ nodes) :
    Extends nodes (root.deduplicate fresh) ∧
      (root.deduplicate fresh).1.expr.unsignedZeros = root.expr.unsignedZeros := by
  obtain ⟨⟨larger, hlarger, hinv⟩, hkeeps, hexpr, -⟩ :=
    Interner.interned_intern root (Interner.invariant_empty h) hroot
  exact ⟨⟨larger, hlarger, hinv.arena, (hinv.of_keeps hkeeps).1⟩, hexpr⟩

end Node.Arena
end Criteria
