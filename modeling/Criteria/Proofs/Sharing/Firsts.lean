import Criteria.Proofs.Sharing.Tally

/-! Leaves where equal parts are shared. The representative of a comparison is the first of all
leaves met that have it, the sign of a zero apart, and stands at the places of all later ones. -/
namespace Criteria
namespace Node

/-- The leaves from left to right, each with its identity and its comparison. -/
def leaves : Node → List (ℕ × Comparison)
  | leaf id c => [(id, c)]
  | join _ _ l r => l.leaves ++ r.leaves
  | not _ n => n.leaves

variable {n : Node}

theorem leaves_expr (n : Node) : n.expr.leaves = n.leaves.map Prod.snd := by
  induction n with
  | leaf id c => rfl
  | join id o l r ihl ihr => simp only [expr, Expr.leaves, leaves, ihl, ihr, List.map_append]
  | not id n ih => exact ih

/-- The first leaf of a list whose comparison is the given one but for the sign of a zero. -/
def firstLeaf? (source : List (ℕ × Comparison)) (c : Comparison) : Option (ℕ × Comparison) :=
  source.find? (·.2.unsignedZero = c.unsignedZero)

end Node

theorem Shape.ofComparison_eq_iff {c d : Comparison} :
    Shape.ofComparison c = Shape.ofComparison d ↔ c.unsignedZero = d.unsignedZero := by
  simp [Shape.ofComparison, Comparison.unsignedZero]

namespace Interner

/-- The representatives of comparisons are the first leaves of a list that have them. -/
def Firsts (source : List (ℕ × Comparison)) (s : Interner) : Prop :=
  ∀ c, s.table[Shape.ofComparison c]? = (Node.firstLeaf? source c).map fun f => .leaf f.1 f.2

variable {nodes : Set Node} {source : List (ℕ × Comparison)} {s : Interner} {n v : Node}

theorem firsts_empty (fresh : ℕ) : Firsts [] { fresh } := by
  simp [Firsts, Node.firstLeaf?]

theorem getElem?_table_represent (s : Interner) (id : ℕ) (shape : Shape) (build : ℕ → Node × ℕ)
    (k : Shape) : (s.represent id shape build).2.table[k]? =
      if shape = k then some (s.represent id shape build).1 else s.table[k]? := by
  unfold represent
  split
  · rename_i known hknown
    split
    · rename_i hk
      rw [← hk, hknown]
    · rfl
  · simp only [Std.HashMap.getElem?_insert, beq_iff_eq]

/-- The comparisons below a node that was met have their representatives. -/
theorem Invariant.exists_of_visited (hs : Invariant nodes s) (hn : n ∈ nodes)
    (hv : s.visited[n.id]? = some v) {c : Comparison} (hc : c ∈ n.expr.leaves) :
    ∃ w, s.table[Shape.ofComparison c]? = some w := by
  obtain ⟨hkeeps, m, hm, hid, hexpr⟩ := hs.visited n.id v hv
  obtain rfl := hs.arena.unique m hm n hn hid
  have hleaves : c.unsignedZero ∈ v.expr.unsignedZeros.leaves := by
    rw [hexpr, Expr.leaves_unsignedZeros]
    exact List.mem_map_of_mem hc
  rw [Expr.leaves_unsignedZeros, List.mem_map] at hleaves
  obtain ⟨d, hd, heq⟩ := hleaves
  obtain ⟨i, hplace⟩ := Node.mem_leaves_expr_iff.mp hd
  rw [← Shape.ofComparison_eq_iff.mpr heq]
  exact ⟨_, hs.keeps_of_mem_places hkeeps _ hplace⟩

/-- Leaves whose comparisons have their representatives are not the first ones. -/
theorem Firsts.append (h : Firsts source s) {more : List (ℕ × Comparison)}
    (hmore : ∀ f ∈ more, ∃ w, s.table[Shape.ofComparison f.2]? = some w) :
    Firsts (source ++ more) s := by
  intro c
  rw [h c, Node.firstLeaf?, Node.firstLeaf?, List.find?_append]
  cases hfirst : source.find? (·.2.unsignedZero = c.unsignedZero) with
  | some f => rfl
  | none =>
    have hnone : more.find? (·.2.unsignedZero = c.unsignedZero) = none := by
      rw [List.find?_eq_none]
      intro f hf heq
      obtain ⟨w, hw⟩ := hmore f hf
      rw [Shape.ofComparison_eq_iff.mpr (by simpa using heq), h c, Node.firstLeaf?, hfirst] at hw
      cases hw
    rw [hnone]
    rfl

theorem Firsts.of_visited (h : Firsts source s) (hs : Invariant nodes s) (hn : n ∈ nodes)
    (hv : s.visited[n.id]? = some v) : Firsts (source ++ n.leaves) s := by
  refine h.append fun f hf => hs.exists_of_visited hn hv ?_
  rw [Node.leaves_expr]
  exact List.mem_map_of_mem hf

theorem Firsts.represent_leaf (h : Firsts source s) (id : ℕ) (c : Comparison) :
    Firsts (source ++ [(id, c)])
      (s.represent id (.ofComparison c) fun fresh => (.leaf id c, fresh)).2 := by
  intro d
  rw [getElem?_table_represent, Node.firstLeaf?, List.find?_append]
  split
  · rename_i hshape
    have heq := Shape.ofComparison_eq_iff.mp hshape
    have hd := h d
    rw [Node.firstLeaf?, ← hshape] at hd
    cases hknown : s.table[Shape.ofComparison c]? with
    | some v =>
      obtain ⟨f, hf, hv⟩ := Option.map_eq_some_iff.mp (hd.symm.trans hknown)
      simp only [represent, hknown, hf, Option.some_or, Option.map_some, hv]
    | none =>
      have hf := Option.map_eq_none_iff.mp (hd.symm.trans hknown)
      simp [represent, hknown, hf, heq]
  · rename_i hshape
    have hne := mt Shape.ofComparison_eq_iff.mpr hshape
    simp only [h d, Node.firstLeaf?, List.find?_cons, hne, decide_false, List.find?_nil,
      Option.or_none]

/-- A node whose parts were interned is no leaf. -/
theorem Firsts.represent_of_parts (h : Firsts source s) {shape : Shape}
    (hshape : ∀ c, shape ≠ .ofComparison c) (id : ℕ) (build : ℕ → Node × ℕ) :
    Firsts source (s.represent id shape build).2 := by
  intro c
  rw [getElem?_table_represent, if_neg (hshape c), h c]

/-- Interning a node meets its leaves from left to right. -/
theorem firsts_intern (n : Node) (hs : Invariant nodes s) (hn : n ∈ nodes) (h : Firsts source s) :
    Firsts (source ++ n.leaves) (intern n s).2 := by
  induction n generalizing nodes source s with
  | leaf id c =>
    rw [intern]
    split
    · rename_i v hv
      exact h.of_visited hs hn hv
    · exact h.represent_leaf id c
  | join id o left right ihl ihr =>
    rw [intern]
    split
    · rename_i v hv
      exact h.of_visited hs hn hv
    · obtain ⟨hleft, hright⟩ := hs.arena.parts_join hn
      obtain ⟨⟨ls, hls, hinv⟩, -⟩ := interned_intern left hs hleft
      have hboth := ihr hinv (hls hright) (ihl hs hleft h)
      rw [List.append_assoc] at hboth
      exact hboth.represent_of_parts (by simp [Shape.ofComparison]) id _
  | not id operand ih =>
    rw [intern]
    split
    · rename_i v hv
      exact h.of_visited hs hn hv
    · exact (ih hs (hs.arena.part_not hn) h).represent_of_parts (by simp [Shape.ofComparison]) id _

/-- A representative has at each place of a leaf the first one that was met. -/
theorem Firsts.leaves_eq (h : Firsts source s) (hs : Invariant nodes s) (hv : s.Keeps v)
    (hexpr : v.expr.unsignedZeros = n.expr.unsignedZeros) :
    v.leaves.map some = n.leaves.map fun leaf => Node.firstLeaf? source leaf.2 := by
  induction v generalizing n with
  | leaf i c =>
    cases n with
    | leaf j d =>
      simp only [Node.expr, Expr.unsignedZeros, Expr.leaf.injEq] at hexpr
      have hfirst := h c
      rw [show s.table[Shape.ofComparison c]? = some (.leaf i c) from hv] at hfirst
      obtain ⟨f, hf, heq⟩ := Option.map_eq_some_iff.mp hfirst.symm
      cases heq
      simp only [Node.leaves, List.map_cons, List.map_nil, Node.firstLeaf?, ← hexpr]
      rw [← Node.firstLeaf?, hf]
    | join | not => cases hexpr
  | join i o l r ihl ihr =>
    cases n with
    | join j o' l' r' =>
      simp only [Node.expr, Expr.unsignedZeros, Expr.join.injEq] at hexpr
      have hparts := (hs.of_keeps hv).2
      simp only [Node.parts, List.forall_mem_cons] at hparts
      simp only [Node.leaves, List.map_append, ihl hparts.1 hexpr.2.1, ihr hparts.2.1 hexpr.2.2]
    | leaf | not => cases hexpr
  | not i v ih =>
    cases n with
    | not j n =>
      simp only [Node.expr, Expr.unsignedZeros, Expr.not.injEq] at hexpr
      exact ih (n := n) ((hs.of_keeps hv).2 v (by simp [Node.parts])) hexpr
    | leaf | join => cases hexpr

end Interner
end Criteria
