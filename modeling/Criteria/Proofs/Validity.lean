import Criteria.Fault
import Mathlib.Data.Nat.Notation
import Mathlib.Tactic.Lemma

/-! An expression has no defect exactly if it is not too deep and none of its comparisons has
one. -/
namespace Criteria

theorem Comparison.defect?_eq_none_iff (c : Comparison) :
    c.defect? = none ↔ Text.isName c.name = true ∧ c.value.isFinite = true := by
  unfold defect?
  cases Text.isName c.name <;> cases c.value.isFinite <;> simp

namespace Expr

theorem firstDefect_eq_none_iff (e : Expr) (level : ℕ) : firstDefect [(e, level)] = none ↔
    level + e.height ≤ maxDepth + 1 ∧ ∀ c ∈ e.leaves, c.defect? = none := by
  induction e generalizing level with
  | leaf c =>
    rw [firstDefect, height]
    split
    · simp only [reduceCtorEq, false_iff, not_and]
      omega
    · have hlevel : level + 1 ≤ maxDepth + 1 := by omega
      cases hc : c.defect? <;> simp [firstDefect, leaves, hc, hlevel]
  | join o l r ihl ihr =>
    have hl := l.height_pos
    rw [firstDefect, height]
    split
    · simp only [reduceCtorEq, false_iff, not_and]
      omega
    · rw [firstDefect_cons, Option.or_eq_none_iff, ihl, ihr]
      simp only [leaves, List.forall_mem_append]
      constructor
      · rintro ⟨⟨hdl, hcl⟩, hdr, hcr⟩
        exact ⟨by omega, hcl, hcr⟩
      · rintro ⟨hd, hcl, hcr⟩
        exact ⟨⟨by omega, hcl⟩, by omega, hcr⟩
  | not e ih =>
    have he := e.height_pos
    rw [firstDefect, height]
    split
    · simp only [reduceCtorEq, false_iff, not_and]
      omega
    · rw [ih]
      simp only [leaves, Nat.add_assoc, Nat.add_comm 1]

/-- The walk finds no defect exactly in expressions within the depth whose leaves have none. -/
theorem defect?_eq_none_iff (e : Expr) :
    e.defect? = none ↔ e.depth ≤ maxDepth ∧ ∀ c ∈ e.leaves, c.defect? = none := by
  rw [defect?, firstDefect_eq_none_iff, depth_eq_height, Nat.add_comm, Nat.add_le_add_iff_right]

theorem validate_eq_ok_iff {e : Expr} : e.validate = .ok () ↔ e.defect? = none := by
  unfold validate
  split <;> simp [*]

/-- An expression in which the check finds no defect, and what the check is for. -/
structure Valid (e : Expr) : Prop where
  defect : e.defect? = none
  depth_le : e.depth ≤ maxDepth
  isName : ∀ c ∈ e.leaves, Text.isName c.name = true
  isFinite : ∀ c ∈ e.leaves, c.value.isFinite = true

theorem valid_of_defect? {e : Expr} (h : e.defect? = none) : e.Valid := by
  obtain ⟨hdepth, hleaves⟩ := (defect?_eq_none_iff e).mp h
  simp only [Comparison.defect?_eq_none_iff] at hleaves
  exact ⟨h, hdepth, fun c hc => (hleaves c hc).1, fun c hc => (hleaves c hc).2⟩

end Expr
end Criteria
