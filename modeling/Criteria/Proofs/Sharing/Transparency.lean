import Criteria.Proofs.Agreement
import Criteria.Proofs.Sharing.Tally

/-! Sharing the equal parts of a node changes nothing that can be read off its expression but the
signs of zeros, and these only where the other sign stands in a like comparison of the node. -/
namespace Criteria
namespace Interner

variable {nodes met : Set Node} {s : Interner} {v : Node} {c : Comparison}

/-- The comparisons of a representative are those of leaves that were interned. -/
theorem Tally.exists_leaf_mem (h : Tally met s) (hs : Invariant nodes s) (hv : s.Keeps v)
    (hc : c ∈ v.expr.leaves) : ∃ id, .leaf id c ∈ met := by
  obtain ⟨id, hid⟩ := Node.mem_leaves_expr_iff.mp hc
  exact ⟨id, h.leaf _ id c (hs.keeps_of_mem_places hv _ hid)⟩

end Interner

namespace Node

variable {nodes : Set Node} {fresh : ℕ} {root : Node}

theorem Arena.leaves_deduplicate (h : Arena nodes fresh) (hroot : root ∈ nodes) :
    ∀ c ∈ (root.deduplicate fresh).1.expr.leaves, c ∈ root.expr.leaves := by
  intro c hc
  have hempty := Interner.invariant_empty h
  obtain ⟨⟨larger, hlarger, hinv⟩, hkeeps, -⟩ := Interner.interned_intern root hempty hroot
  have htally := (Interner.tally_empty fresh).intern root hempty hroot (Set.empty_subset nodes)
  rw [Set.empty_union] at htally
  obtain ⟨id, hid⟩ := htally.exists_leaf_mem hinv hkeeps hc
  exact mem_leaves_expr_iff.mpr ⟨id, hid⟩

/-- Sharing the equal parts of a node keeps its shape and the comparison at every place, but that a
zero may take the sign of a zero in a like comparison of the node. So its measures and attributes
are kept. It is equal by value to the node unless a literal is not a number, and gives in any case
the same verdict or error on every record. -/
theorem deduplicate_transparent (h : Arena nodes fresh) (hroot : root ∈ nodes) :
    Expr.Pointwise (Comparison.Resigned root.expr.leaves) root.expr
        (root.deduplicate fresh).1.expr ∧
      (root.deduplicate fresh).1.expr.depth = root.expr.depth ∧
      (root.deduplicate fresh).1.expr.size = root.expr.size ∧
      (root.deduplicate fresh).1.expr.attributes = root.expr.attributes ∧
      ((root.deduplicate fresh).1.expr.agrees root.expr = true ↔ root.expr.NoNaN) ∧
      ∀ ordering record, (root.deduplicate fresh).1.evaluate ordering record =
        root.evaluate ordering record := by
  have hzeros := (h.deduplicate hroot).2
  refine ⟨Expr.pointwise_resigned hzeros.symm (h.leaves_deduplicate hroot),
    Expr.depth_congr hzeros, Expr.size_congr hzeros, Expr.attributes_congr hzeros, ?_, ?_⟩
  · rw [Expr.agrees_iff, Expr.noNaN_congr hzeros]
    exact and_iff_left hzeros
  · intro ordering record
    rw [evaluate_eq, Expr.evaluate_congr hzeros, evaluate_eq]

/-- A node that holds both zeros, the value that is not a number, and one part in two places. -/
theorem deduplicate_transparent_zeros :
    let zeros : Node := .join 2 .or zero minus
    let nan : Node := .leaf 3 ⟨"b", .notEqual, .number ⟨0x7ff8000000000000⟩⟩
    let root : Node := .join 5 .or (.join 4 .and zeros zeros) nan
    (∃ nodes, Arena nodes 6 ∧ root ∈ nodes) ∧
    Expr.Pointwise (Comparison.Resigned root.expr.leaves) root.expr (root.deduplicate 6).1.expr ∧
      (root.deduplicate 6).1.expr.size = 9 ∧
      (root.deduplicate 6).1.expr.agrees root.expr = false ∧
      ∀ ordering record, (root.deduplicate 6).1.evaluate ordering record =
        root.evaluate ordering record := by
  intro zeros nan root
  have hzeros := Arena.zeros.insert (n := zeros) rfl (by simp [zeros, parts])
  have hnan := hzeros.insert (n := nan) rfl (by simp [nan, parts])
  have hjoin := hnan.insert (n := .join 4 .and zeros zeros) rfl (by simp [parts])
  have hroot := hjoin.insert (n := root) rfl (by simp [root, parts])
  obtain ⟨hpoints, -, hsize, -, hagrees, hsame⟩ :=
    deduplicate_transparent hroot (Set.mem_insert root _)
  refine ⟨⟨_, hroot, Set.mem_insert root _⟩, hpoints, hsize, ?_, hsame⟩
  rw [← Bool.not_eq_true, hagrees]
  intro hnone
  have hvalue := hnone ⟨"b", .notEqual, .number ⟨0x7ff8000000000000⟩⟩ (by
    simp [root, nan, expr, Expr.leaves])
  exact absurd hvalue (by decide)

end Node
end Criteria
