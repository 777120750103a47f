import Criteria.Proofs.Sharing.Firsts

/-! The signs of zeros where equal parts are shared. Each comparison becomes the first one that is
equal to it but for the sign of a zero, so the expression of a shared node follows from that of the
node alone, whichever of its parts were shared before. -/
namespace Criteria

/-- The first comparison of a list that is the given one but for the sign of a zero. -/
def Comparison.signedBy (source : List Comparison) (c : Comparison) : Comparison :=
  (source.find? (·.unsignedZero = c.unsignedZero)).getD c

/-- Some comparison of the list is the given one but for the sign of a zero. -/
def Comparison.Covered (source : List Comparison) (c : Comparison) : Prop :=
  ∃ d ∈ source, d.unsignedZero = c.unsignedZero

namespace Expr

/-- The expression with each comparison as a list has it first. -/
def signedBy (source : List Comparison) : Expr → Expr
  | leaf c => leaf (c.signedBy source)
  | join o l r => join o (l.signedBy source) (r.signedBy source)
  | not e => not (e.signedBy source)

/-- The expression with each comparison as it has it first itself. -/
def shared (e : Expr) : Expr := e.signedBy e.leaves

end Expr

variable {source : List Comparison} {c : Comparison} {e f : Expr}

namespace Comparison

theorem covered_of_mem (h : c ∈ source) : c.Covered source := ⟨c, h, rfl⟩

theorem unsignedZero_signedBy (source : List Comparison) (c : Comparison) :
    (c.signedBy source).unsignedZero = c.unsignedZero := by
  rw [signedBy]
  cases hfind : source.find? (·.unsignedZero = c.unsignedZero) with
  | none => rfl
  | some d => simpa using List.find?_some hfind

theorem Covered.find?_eq (h : c.Covered source) :
    source.find? (·.unsignedZero = c.unsignedZero) = some (c.signedBy source) := by
  obtain ⟨d, hd, heq⟩ := h
  obtain ⟨first, hfirst⟩ := Option.isSome_iff_exists.mp
    (List.find?_isSome (p := (·.unsignedZero = c.unsignedZero)) |>.mpr ⟨d, hd, by simpa using heq⟩)
  rw [signedBy, hfirst, Option.getD_some]

end Comparison

namespace Expr

theorem unsignedZeros_signedBy (source : List Comparison) (e : Expr) :
    (e.signedBy source).unsignedZeros = e.unsignedZeros := by
  induction e with
  | leaf c => exact congrArg leaf (c.unsignedZero_signedBy source)
  | join o l r ihl ihr => simp only [signedBy, unsignedZeros, ihl, ihr]
  | not e ih => simp only [signedBy, unsignedZeros, ih]

theorem leaves_signedBy (source : List Comparison) (e : Expr) :
    (e.signedBy source).leaves = e.leaves.map (·.signedBy source) := by
  induction e with
  | leaf c => rfl
  | join o l r ihl ihr => simp only [signedBy, leaves, ihl, ihr, List.map_append]
  | not e ih => exact ih

/-- In the comparisons of a shared expression the same are found first. -/
theorem find?_leaves_shared (e : Expr) (c : Comparison) :
    e.shared.leaves.find? (·.unsignedZero = c.unsignedZero) =
      e.leaves.find? (·.unsignedZero = c.unsignedZero) := by
  rw [shared, leaves_signedBy, List.find?_map]
  simp only [Function.comp_def, Comparison.unsignedZero_signedBy]
  cases hfind : e.leaves.find? (·.unsignedZero = c.unsignedZero) with
  | none => rfl
  | some d =>
    have heq : d.unsignedZero = c.unsignedZero := by simpa using List.find?_some hfind
    rw [Option.map_some, Comparison.signedBy, heq, hfind, Option.getD_some]

/-- An expression with the comparisons that a list has first gets its signs from that list. -/
theorem eq_signedBy (h : e.unsignedZeros = f.unsignedZeros)
    (he : ∀ c ∈ e.leaves, source.find? (·.unsignedZero = c.unsignedZero) = some c) :
    e = f.signedBy source := by
  induction e generalizing f with
  | leaf c =>
    cases f with
    | leaf d =>
      simp only [unsignedZeros, leaf.injEq] at h
      rw [signedBy, Comparison.signedBy, ← h, he c (by simp [leaves]), Option.getD_some]
    | join | not => cases h
  | join o l r ihl ihr =>
    cases f with
    | join o' l' r' =>
      simp only [unsignedZeros, join.injEq] at h
      rw [leaves, List.forall_mem_append] at he
      rw [signedBy, h.1, ihl h.2.1 he.1, ihr h.2.2 he.2]
    | leaf | not => cases h
  | not e ih =>
    cases f with
    | not f =>
      simp only [unsignedZeros, not.injEq] at h
      rw [signedBy, ih h he]
    | leaf | join => cases h

end Expr

/-- Sharing the equal parts of a node gives every comparison the signs that it has where it stands
first. -/
theorem Node.Arena.expr_deduplicate {nodes : Set Node} {fresh : ℕ} {root : Node}
    (h : Arena nodes fresh) (hroot : root ∈ nodes) :
    (root.deduplicate fresh).1.expr = root.expr.shared := by
  have hempty := Interner.invariant_empty h
  obtain ⟨⟨larger, hlarger, hinv⟩, hkeeps, hexpr, -⟩ := Interner.interned_intern root hempty hroot
  have hfirsts := Interner.firsts_intern root hempty hroot (Interner.firsts_empty fresh)
  refine Expr.eq_signedBy hexpr fun c hc => ?_
  obtain ⟨id, hplace⟩ := mem_leaves_expr_iff.mp hc
  have hleaf := hinv.keeps_of_mem_places hkeeps _ hplace
  rw [Interner.Keeps, shape, hfirsts c, List.nil_append] at hleaf
  obtain ⟨leaf, hfirst, heq⟩ := Option.map_eq_some_iff.mp hleaf
  cases heq
  rw [leaves_expr, List.find?_map, Function.comp_def, ← firstLeaf?, hfirst, Option.map_some]

end Criteria
