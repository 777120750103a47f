import Criteria.Evaluation
import Criteria.Proofs.Attributes
import Mathlib.Data.Nat.Notation
import Mathlib.Tactic.Lemma

/-! The walk over the comparisons of an expression, from left to right. A right operand is passed
over if the left one has decided, or could not be evaluated. What the walk comes to depends on the
comparisons that it visits and on nothing else, and a comparison that fails is the last one. -/
namespace Criteria

/-- Whether a left operand with this result leaves it to the right one. -/
def Connective.defers {ε : Type} : Connective → Except ε Bool → Bool
  | .and, .ok b => b
  | .or, .ok b => !b
  | _, .error _ => false

lemma Connective.exists_of_defers {ε : Type} {o : Connective} {left : Except ε Bool}
    (h : o.defers left = true) : ∃ b, left = .ok b := by
  cases left with
  | error _ => cases o <;> cases h
  | ok b => exact ⟨b, rfl⟩

namespace Expr

variable {ε : Type} {ask ask' : Comparison → Except ε Bool} {e : Expr}

/-- Asks the comparisons for their results as far as these are needed. Gives those that were asked,
in their order, and what comes of it. -/
def walk (ask : Comparison → Except ε Bool) : Expr → List Comparison × Except ε Bool
  | leaf c => ([c], ask c)
  | join o l r =>
    if o.defers (l.walk ask).2 then ((l.walk ask).1 ++ (r.walk ask).1, (r.walk ask).2)
    else l.walk ask
  | not e => ((e.walk ask).1, (e.walk ask).2.map (!·))

/-- The comparisons that are looked at when the expression is evaluated. -/
def visited (ordering : StringOrdering) (r : Record) (e : Expr) : List Comparison :=
  (e.walk fun c => c.evaluate ordering r).1

lemma combine_eq (o : Connective) (left : Except EvalError Bool)
    (right : Unit → Except EvalError Bool) :
    o.combine left right = if o.defers left then right () else left := by
  cases left with
  | error _ => cases o <;> rfl
  | ok b => cases o <;> cases b <;> rfl

/-- An expression is evaluated by a walk that asks for comparisons with the record. -/
theorem evaluate_eq_walk (ordering : StringOrdering) (r : Record) (e : Expr) :
    e.evaluate ordering r = (e.walk fun c => c.evaluate ordering r).2 := by
  induction e with
  | leaf c => rfl
  | join o left right ihl ihr =>
    rw [evaluate, combine_eq, ihl, ihr, walk]
    split <;> rfl
  | not e ih => rw [evaluate, ih, walk]

/-- Another walk is the same if it gets the same results from the comparisons that are visited. -/
theorem walk_congr (h : ∀ c ∈ (e.walk ask).1, ask' c = ask c) : e.walk ask' = e.walk ask := by
  induction e with
  | leaf c => simp [walk, h c (by simp [walk])]
  | join o l r ihl ihr =>
    by_cases ho : o.defers (l.walk ask).2 = true
    · simp only [walk, if_pos ho, List.forall_mem_append] at h ⊢
      rw [ihl h.1, ihr h.2, if_pos ho]
    · simp only [walk, if_neg ho] at h ⊢
      rw [ihl h, if_neg ho]
  | not e ih => rw [walk, walk, ih h]

/-- A walk that comes to a result has got one from each comparison. -/
theorem forall_ask_eq_ok {b : Bool} (h : (e.walk ask).2 = .ok b) :
    ∀ c ∈ (e.walk ask).1, ∃ b, ask c = .ok b := by
  induction e generalizing b with
  | leaf c =>
    intro d hd
    obtain rfl := List.mem_singleton.mp hd
    exact ⟨b, h⟩
  | join o l r ihl ihr =>
    by_cases ho : o.defers (l.walk ask).2 = true
    · obtain ⟨a, hl⟩ := Connective.exists_of_defers ho
      simp only [walk, if_pos ho] at h ⊢
      exact List.forall_mem_append.mpr ⟨ihl hl, ihr h⟩
    · simp only [walk, if_neg ho] at h ⊢
      exact ihl h
  | not e ih =>
    simp only [walk] at h ⊢
    cases he : (e.walk ask).2 with
    | error x => simp [he, Except.map] at h
    | ok a => exact ih he

/-- A walk that comes to an error has got it from the last comparison, and results from those
before. -/
theorem exists_ask_eq_error {x : ε} (h : (e.walk ask).2 = .error x) : ∃ front c,
    (e.walk ask).1 = front ++ [c] ∧ (∀ d ∈ front, ∃ b, ask d = .ok b) ∧ ask c = .error x := by
  induction e with
  | leaf c => exact ⟨[], c, rfl, by simp, h⟩
  | join o l r ihl ihr =>
    by_cases ho : o.defers (l.walk ask).2 = true
    · obtain ⟨a, hl⟩ := Connective.exists_of_defers ho
      simp only [walk, if_pos ho] at h ⊢
      obtain ⟨front, c, hr, hfront, hc⟩ := ihr h
      refine ⟨(l.walk ask).1 ++ front, c, by rw [hr, List.append_assoc], ?_, hc⟩
      exact List.forall_mem_append.mpr ⟨forall_ask_eq_ok hl, hfront⟩
    · simp only [walk, if_neg ho] at h ⊢
      exact ihl h
  | not e ih =>
    simp only [walk] at h ⊢
    cases he : (e.walk ask).2 with
    | error y =>
      rw [he] at h
      cases h
      exact ih he
    | ok a => simp [he, Except.map] at h

theorem walk_sublist_leaves (ask : Comparison → Except ε Bool) (e : Expr) :
    (e.walk ask).1.Sublist e.leaves := by
  induction e with
  | leaf c => exact .refl _
  | join o l r ihl ihr =>
    rw [walk]
    split
    · exact ihl.append ihr
    · exact ihl.trans (List.sublist_append_left ..)
  | not e ih => exact ih

/-- A walk that gets as far as another one, and the same results, visits what the other visits. -/
theorem walk_prefix (h : ∀ c b, ask c = .ok b → ask' c = .ok b) (e : Expr) :
    (e.walk ask).1 <+: (e.walk ask').1 := by
  induction e with
  | leaf c => exact List.prefix_rfl
  | join o l r ihl ihr =>
    by_cases ho : o.defers (l.walk ask).2 = true
    · obtain ⟨a, hl⟩ := Connective.exists_of_defers ho
      have hsame : l.walk ask' = l.walk ask := walk_congr fun c hc => by
        obtain ⟨b, hb⟩ := forall_ask_eq_ok hl c hc
        rw [hb, h c b hb]
      simp only [walk, hsame, if_pos ho]
      exact (List.prefix_append_right_inj _).mpr ihr
    · simp only [walk, if_neg ho]
      split
      · exact ihl.trans (List.prefix_append ..)
      · exact ihl
  | not e ih => exact ih

variable {ordering : StringOrdering} {r : Record} {c : Comparison}

theorem mem_leaves_of_visited (h : c ∈ e.visited ordering r) : c ∈ e.leaves :=
  (walk_sublist_leaves _ e).subset h

theorem name_mem_attributes_of_visited (h : c ∈ e.visited ordering r) : c.name ∈ e.attributes :=
  mem_attributes_iff.mpr ⟨c, mem_leaves_of_visited h, rfl⟩

end Expr
end Criteria
