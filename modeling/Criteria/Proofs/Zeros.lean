import Criteria.Node.Interning
import Criteria.Proofs.Validity

/-! Expressions up to the signs of their zeros. What an expression gives on a record, and whether it
has a defect, does not depend on such a sign. -/
namespace Criteria

namespace Binary64

theorem magnitude_unsignedZero (x : Binary64) : x.unsignedZero.magnitude = x.magnitude := by
  unfold unsignedZero
  split
  · rename_i h
    simp only [isZero, beq_iff_eq] at h
    rw [h]
    rfl
  · rfl

theorem rank_unsignedZero (x : Binary64) : x.unsignedZero.rank = x.rank := by
  unfold unsignedZero
  split
  · rename_i h
    simp only [isZero, beq_iff_eq] at h
    have hzero : rank ⟨0⟩ = 0 := by decide
    rw [hzero]
    simp [rank, h]
  · rfl

theorem compare?_unsignedZero (x y : Binary64) : x.compare? y.unsignedZero = x.compare? y := by
  have hnan : y.unsignedZero.isNaN = y.isNaN := by simp only [isNaN, magnitude_unsignedZero]
  rw [compare?, hnan, rank_unsignedZero, compare?]

end Binary64

namespace Scalar

theorem isFinite_unsignedZero (s : Scalar) : s.unsignedZero.isFinite = s.isFinite := by
  cases s with
  | number x => simp only [unsignedZero, isFinite, Binary64.isFinite,
      Binary64.magnitude_unsignedZero]
  | boolean | string => rfl

end Scalar

/-- The comparison with a zero literal losing its sign. -/
def Comparison.unsignedZero (c : Comparison) : Comparison :=
  { c with value := c.value.unsignedZero }

namespace Comparison

theorem defect?_unsignedZero (c : Comparison) : c.unsignedZero.defect? = c.defect? := by
  simp only [defect?, unsignedZero, Scalar.isFinite_unsignedZero]

theorem evaluate_unsignedZero (ordering : StringOrdering) (r : Record) (c : Comparison) :
    c.unsignedZero.evaluate ordering r = c.evaluate ordering r := by
  obtain ⟨name, operator, literal⟩ := c
  simp only [evaluate, unsignedZero]
  cases r.get? name with
  | none => rfl
  | some value =>
    cases literal with
    | number x =>
      cases value with
      | number v => simp only [verdict, Scalar.unsignedZero, Binary64.compare?_unsignedZero]
      | boolean | string => rfl
    | boolean | string => rfl

end Comparison

namespace Expr

/-- The expression with all its zero literals losing their signs. -/
def unsignedZeros : Expr → Expr
  | leaf c => leaf c.unsignedZero
  | join o l r => join o l.unsignedZeros r.unsignedZeros
  | not e => not e.unsignedZeros

theorem height_unsignedZeros (e : Expr) : e.unsignedZeros.height = e.height := by
  induction e with
  | leaf c => rfl
  | join o l r ihl ihr => simp only [unsignedZeros, height, ihl, ihr]
  | not e ih => simp only [unsignedZeros, height, ih]

theorem leaves_unsignedZeros (e : Expr) :
    e.unsignedZeros.leaves = e.leaves.map Comparison.unsignedZero := by
  induction e with
  | leaf c => rfl
  | join o l r ihl ihr => simp only [unsignedZeros, leaves, ihl, ihr, List.map_append]
  | not e ih => simp only [unsignedZeros, leaves, ih]

theorem evaluate_unsignedZeros (ordering : StringOrdering) (r : Record) (e : Expr) :
    e.unsignedZeros.evaluate ordering r = e.evaluate ordering r := by
  induction e with
  | leaf c => exact c.evaluate_unsignedZero ordering r
  | join o left right ihl ihr => simp only [unsignedZeros, evaluate, ihl, ihr]
  | not e ih => simp only [unsignedZeros, evaluate, ih]

section Congruence

variable {e f : Expr}

/-- Expressions that differ in the signs of zeros give the same on every record. -/
theorem evaluate_congr (h : e.unsignedZeros = f.unsignedZeros) (ordering : StringOrdering)
    (r : Record) : e.evaluate ordering r = f.evaluate ordering r := by
  rw [← e.evaluate_unsignedZeros, h, f.evaluate_unsignedZeros]

theorem depth_congr (h : e.unsignedZeros = f.unsignedZeros) : e.depth = f.depth := by
  rw [depth_eq_height, depth_eq_height, ← e.height_unsignedZeros, h, f.height_unsignedZeros]

theorem forall_defect?_congr (h : e.unsignedZeros = f.unsignedZeros) :
    (∀ c ∈ e.leaves, c.defect? = none) ↔ ∀ c ∈ f.leaves, c.defect? = none := by
  have hleaves (e : Expr) : (∀ c ∈ e.leaves, c.defect? = none) ↔
      ∀ c ∈ e.unsignedZeros.leaves, c.defect? = none := by
    rw [leaves_unsignedZeros, List.forall_mem_map]
    simp only [Comparison.defect?_unsignedZero]
  rw [hleaves e, h, hleaves f]

end Congruence
end Expr
end Criteria
