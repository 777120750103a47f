import Criteria.Proofs.Attributes
import Criteria.Proofs.Zeros
import Mathlib.Tactic.Tauto

/-! Equality by value. Two expressions agree exactly if they are equal up to the signs of zeros and
hold no literal that is not a number. Up to these signs they have the same measures, and the same
comparison at every place that holds no zero. -/
namespace Criteria

namespace Binary64

variable {x y : Binary64}

theorem isNaN_unsignedZero (x : Binary64) : x.unsignedZero.isNaN = x.isNaN := by
  simp only [isNaN, magnitude_unsignedZero]

theorem unsignedZero_of_isZero (h : x.isZero = true) : x.unsignedZero = ⟨0⟩ := if_pos h

theorem unsignedZero_of_not_isZero (h : ¬ x.isZero = true) : x.unsignedZero = x := if_neg h

/-- Only zeros change when they lose their signs. -/
theorem eq_or_isZero_of_unsignedZero_eq (h : x.unsignedZero = y.unsignedZero) :
    x = y ∨ x.isZero = true ∧ y.isZero = true := by
  have hmagnitude : x.magnitude = y.magnitude := by
    rw [← x.magnitude_unsignedZero, h, y.magnitude_unsignedZero]
  by_cases hx : x.isZero = true
  · right
    exact ⟨hx, by simpa only [isZero, hmagnitude] using hx⟩
  · have hy : ¬ y.isZero = true := by simpa only [isZero, hmagnitude] using hx
    left
    rwa [unsignedZero_of_not_isZero hx, unsignedZero_of_not_isZero hy] at h

/-- Numbers of one rank differ in the sign of a zero at most. -/
theorem rank_eq_iff (x y : Binary64) : x.rank = y.rank ↔ x.unsignedZero = y.unsignedZero := by
  constructor
  · intro h
    have hmagnitude : x.magnitude = y.magnitude := by
      unfold rank at h
      split at h <;> split at h <;> omega
    by_cases hx : x.isZero = true
    · have hy : y.isZero = true := by simpa only [isZero, hmagnitude] using hx
      rw [unsignedZero_of_isZero hx, unsignedZero_of_isZero hy]
    · have hpos : x.magnitude ≠ 0 := by simpa [isZero] using hx
      have hsign : x.negative = y.negative := by
        unfold rank at h
        cases hxs : x.negative <;> cases hys : y.negative <;> simp [hxs, hys] at h ⊢ <;> omega
      have hxy : x = y := by
        rw [← x.ofMagnitude_self, hsign, hmagnitude, y.ofMagnitude_self]
      rw [hxy]
  · intro h
    rw [← x.rank_unsignedZero, h, y.rank_unsignedZero]

theorem agrees_iff (x y : Binary64) :
    x.agrees y = true ↔ x.isNaN = false ∧ x.unsignedZero = y.unsignedZero := by
  have hnan (h : x.unsignedZero = y.unsignedZero) : x.isNaN = y.isNaN := by
    rw [← x.isNaN_unsignedZero, h, y.isNaN_unsignedZero]
  rw [← rank_eq_iff] at hnan ⊢
  simp only [agrees, compare?]
  cases hx : x.isNaN with
  | true => simp
  | false =>
    cases hy : y.isNaN with
    | true =>
      have hne : x.rank ≠ y.rank := fun h => by simp [hnan h, hy] at hx
      simp [hne]
    | false => simp

end Binary64

namespace Scalar

def isNaN : Scalar → Bool
  | .number x => x.isNaN
  | _ => false

theorem isNaN_unsignedZero (s : Scalar) : s.unsignedZero.isNaN = s.isNaN := by
  cases s with
  | number x => exact x.isNaN_unsignedZero
  | boolean | string => rfl

theorem agrees_iff (s t : Scalar) :
    s.agrees t = true ↔ s.isNaN = false ∧ s.unsignedZero = t.unsignedZero := by
  cases s <;> cases t <;> simp [agrees, isNaN, unsignedZero, Binary64.agrees_iff]

end Scalar

namespace Comparison

variable {c d : Comparison}

/-- The second comparison is the first one, or it is so but for the sign of its zero literal and
comes from a list. -/
def Resigned (source : List Comparison) (c d : Comparison) : Prop :=
  d = c ∨ ∃ x y : Binary64, x.isZero = true ∧ y.isZero = true ∧ c.value = .number x ∧
    d = { c with value := .number y } ∧ d ∈ source

theorem resigned_of_unsignedZero_eq {source : List Comparison}
    (h : c.unsignedZero = d.unsignedZero) (hd : d ∈ source) : c.Resigned source d := by
  obtain ⟨name, operator, s⟩ := c
  obtain ⟨name', operator', t⟩ := d
  simp only [unsignedZero, Comparison.mk.injEq] at h
  obtain ⟨rfl, rfl, hvalue⟩ := h
  cases s with
  | number x =>
    cases t with
    | number y =>
      rw [Scalar.unsignedZero, Scalar.unsignedZero, Scalar.number.injEq] at hvalue
      obtain rfl | ⟨hx, hy⟩ := Binary64.eq_or_isZero_of_unsignedZero_eq hvalue
      · exact .inl rfl
      · exact .inr ⟨x, y, hx, hy, rfl, rfl, hd⟩
    | boolean | string => cases hvalue
  | boolean b =>
    cases t with
    | boolean b' =>
      cases hvalue
      exact .inl rfl
    | number | string => cases hvalue
  | string text =>
    cases t with
    | string text' =>
      cases hvalue
      exact .inl rfl
    | number | boolean => cases hvalue

end Comparison

namespace Expr

/-- No literal of the expression is the value that is not a number. -/
def NoNaN (e : Expr) : Prop := ∀ c ∈ e.leaves, c.value.isNaN = false

/-- Expressions of one shape, with comparisons that are related place by place. -/
inductive Pointwise (R : Comparison → Comparison → Prop) : Expr → Expr → Prop
  | leaf {c d} (h : R c d) : Pointwise R (.leaf c) (.leaf d)
  | join {o l r l' r'} (left : Pointwise R l l') (right : Pointwise R r r') :
      Pointwise R (.join o l r) (.join o l' r')
  | not {e f} (h : Pointwise R e f) : Pointwise R (.not e) (.not f)

theorem agrees_iff (e f : Expr) :
    e.agrees f = true ↔ e.NoNaN ∧ e.unsignedZeros = f.unsignedZeros := by
  induction e generalizing f with
  | leaf c =>
    cases f with
    | leaf d =>
      simp only [agrees, Bool.and_eq_true, beq_iff_eq, Scalar.agrees_iff, NoNaN, leaves,
        List.mem_singleton, forall_eq, unsignedZeros, Comparison.unsignedZero, leaf.injEq,
        Comparison.mk.injEq]
      tauto
    | join | not => simp [agrees, unsignedZeros]
  | join o l r ihl ihr =>
    cases f with
    | join o' l' r' =>
      simp only [agrees, Bool.and_eq_true, beq_iff_eq, ihl, ihr, NoNaN, leaves,
        List.forall_mem_append, unsignedZeros, join.injEq]
      tauto
    | leaf | not => simp [agrees, unsignedZeros]
  | not e ih =>
    cases f with
    | not f => simp only [agrees, ih, NoNaN, leaves, unsignedZeros, not.injEq]
    | leaf | join => simp [agrees, unsignedZeros]

theorem size_unsignedZeros (e : Expr) : e.unsignedZeros.size = e.size := by
  induction e with
  | leaf c => rfl
  | join o l r ihl ihr => simp only [unsignedZeros, size, ihl, ihr]
  | not e ih => simp only [unsignedZeros, size, ih]

theorem attributes_unsignedZeros (e : Expr) : e.unsignedZeros.attributes = e.attributes := by
  rw [attributes_eq, attributes_eq, leaves_unsignedZeros, List.map_map]
  rfl

section Congruence

variable {e f : Expr}

theorem size_congr (h : e.unsignedZeros = f.unsignedZeros) : e.size = f.size := by
  rw [← e.size_unsignedZeros, h, f.size_unsignedZeros]

theorem attributes_congr (h : e.unsignedZeros = f.unsignedZeros) :
    e.attributes = f.attributes := by
  rw [← e.attributes_unsignedZeros, h, f.attributes_unsignedZeros]

theorem noNaN_congr (h : e.unsignedZeros = f.unsignedZeros) : e.NoNaN ↔ f.NoNaN := by
  have hleaves (e : Expr) : e.NoNaN ↔ e.unsignedZeros.NoNaN := by
    simp only [NoNaN, leaves_unsignedZeros, List.forall_mem_map, Comparison.unsignedZero,
      Scalar.isNaN_unsignedZero]
  rw [hleaves e, h, ← hleaves f]

/-- Where the leaves of the second expression come from a list, it has the comparisons of the first
one, and in place of a zero perhaps another zero of the list. -/
theorem pointwise_resigned {source : List Comparison} (h : e.unsignedZeros = f.unsignedZeros)
    (hf : ∀ d ∈ f.leaves, d ∈ source) : Pointwise (Comparison.Resigned source) e f := by
  induction e generalizing f with
  | leaf c =>
    cases f with
    | leaf d =>
      rw [unsignedZeros, unsignedZeros, leaf.injEq] at h
      exact .leaf (Comparison.resigned_of_unsignedZero_eq h (hf d (by simp [leaves])))
    | join | not => cases h
  | join o l r ihl ihr =>
    cases f with
    | join o' l' r' =>
      rw [unsignedZeros, unsignedZeros, join.injEq] at h
      obtain ⟨rfl, hl, hr⟩ := h
      rw [leaves, List.forall_mem_append] at hf
      exact .join (ihl hl hf.1) (ihr hr hf.2)
    | leaf | not => cases h
  | not e ih =>
    cases f with
    | not f =>
      rw [unsignedZeros, unsignedZeros, not.injEq] at h
      exact .not (ih h hf)
    | leaf | join => cases h

end Congruence
end Expr
end Criteria
