import Criteria.Expr.Basic
import Mathlib.Data.List.Nodup

/-! The attributes of an expression. They are the names that its comparisons have from left to
right, where a name is left out that stands further left as well. -/
namespace Criteria

section FirstOccurrences

variable {α β : Type} [BEq α] [LawfulBEq α]

/-- A filter drops all occurrences of a member or none, so the same ones are first. -/
theorem eraseDups_filter (p : α → Bool) (as : List α) :
    (as.filter p).eraseDups = as.eraseDups.filter p := by
  induction as generalizing p with
  | nil => rfl
  | cons a as ih =>
    rw [List.eraseDups_cons, ih]
    by_cases ha : p a = true
    · rw [List.filter_cons_of_pos ha, List.filter_cons_of_pos ha, List.eraseDups_cons,
        List.filter_filter, ih, List.filter_filter]
      simp only [Bool.and_comm]
    · rw [List.filter_cons_of_neg ha, List.filter_cons_of_neg ha, ih, List.filter_filter]
      apply List.filter_congr
      intro b _
      by_cases hb : b = a
      · subst hb
        simp [ha]
      · simp [hb]

theorem eraseDups_cons_eq (a : α) (as : List α) :
    (a :: as).eraseDups = a :: as.eraseDups.filter (!· == a) := by
  rw [List.eraseDups_cons, eraseDups_filter]

theorem nodup_eraseDups (as : List α) : as.eraseDups.Nodup := by
  induction as with
  | nil => exact List.nodup_nil
  | cons a as ih =>
    rw [eraseDups_cons_eq, List.nodup_cons]
    constructor
    · simp
    · exact ih.filter _

theorem eraseDups_of_nodup {as : List α} (h : as.Nodup) : as.eraseDups = as := by
  induction as with
  | nil => rfl
  | cons a as ih =>
    obtain ⟨ha, has⟩ := List.nodup_cons.mp h
    rw [eraseDups_cons_eq, ih has]
    congr 1
    apply List.filter_eq_self.mpr
    intro b hb
    simp only [Bool.not_eq_true', beq_eq_false_iff_ne]
    rintro rfl
    exact ha hb

theorem removeAll_congr (as : List α) {bs cs : List α} (h : ∀ a, a ∈ bs ↔ a ∈ cs) :
    as.removeAll bs = as.removeAll cs := by
  apply List.filter_congr
  intro a _
  simp only [List.elem_eq_contains, List.contains_eq_mem, h a]

/-- Lists that are put together may have lost their own repetitions before. -/
theorem eraseDups_flatMap_eraseDups (f : β → List α) (bs : List β) :
    (bs.flatMap fun b => (f b).eraseDups).eraseDups = (bs.flatMap f).eraseDups := by
  induction bs with
  | nil => rfl
  | cons b bs ih =>
    have hsame : ∀ a, a ∈ (f b).eraseDups ↔ a ∈ f b := fun a => List.mem_eraseDups
    rw [List.flatMap_cons, List.flatMap_cons, List.eraseDups_append, List.eraseDups_append,
      eraseDups_of_nodup (nodup_eraseDups _), removeAll_congr _ hsame, List.removeAll,
      List.removeAll, eraseDups_filter, ih, eraseDups_filter]

end FirstOccurrences

namespace Expr

variable {e : Expr} {name : String}

/-- What is collected already stays in front, and nothing of it is collected again. A right operand
finds there the names before the whole and those of the left operand that are new. -/
theorem collectAttributes_eq (e : Expr) (names : List String) : e.collectAttributes names =
    names ++ ((e.leaves.map Comparison.name).removeAll names).eraseDups := by
  induction e generalizing names with
  | leaf c =>
    by_cases hc : c.name ∈ names
    · simp [collectAttributes, leaves, List.removeAll, hc]
    · simp [collectAttributes, leaves, List.removeAll, hc, List.eraseDups_cons]
  | join o l r ihl ihr =>
    have hseen : (r.leaves.map Comparison.name).removeAll
          (names ++ ((l.leaves.map Comparison.name).removeAll names).eraseDups) =
        ((r.leaves.map Comparison.name).removeAll names).removeAll
          ((l.leaves.map Comparison.name).removeAll names) := by
      simp only [List.removeAll, List.filter_filter]
      apply List.filter_congr
      intro name _
      by_cases hname : name ∈ names <;> simp [hname, List.mem_eraseDups]
    rw [collectAttributes, ihl, ihr, hseen, List.append_assoc, ← List.eraseDups_append, leaves,
      List.map_append]
    simp only [List.removeAll, List.filter_append]
  | not e ih => exact ih names

theorem attributes_eq (e : Expr) :
    e.attributes = (e.leaves.map Comparison.name).eraseDups := by
  rw [attributes, collectAttributes_eq, List.nil_append]
  congr 1
  exact List.filter_eq_self.mpr fun _ _ => rfl

theorem nodup_attributes (e : Expr) : e.attributes.Nodup :=
  e.attributes_eq ▸ nodup_eraseDups _

theorem mem_attributes_iff : name ∈ e.attributes ↔ ∃ c ∈ e.leaves, c.name = name := by
  rw [attributes_eq, List.mem_eraseDups, List.mem_map]

end Expr
end Criteria
