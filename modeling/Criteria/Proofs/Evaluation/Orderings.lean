import Criteria.Proofs.Evaluation.Errors

/-! Whether strings can be ordered makes a difference where two strings are ordered, and there it
turns an error into a decision. -/
namespace Criteria

variable {r : Record} {e : Expr}

namespace Comparison

variable {c : Comparison}

/-- The operator is one of order, and both values are strings. -/
def OrdersStrings (r : Record) (c : Comparison) : Prop :=
  c.operator.isEquality = false ∧ ∃ v l, r.get? c.name = some (.string v) ∧ c.value = .string l

lemma fails_of_ordersStrings (h : c.OrdersStrings r) :
    c.Fails .reject r (.mismatch c.name .number .string) := by
  obtain ⟨hoperator, v, l, hv, hl⟩ := h
  exact .order (v := .string v) hv (by rw [hl]; rfl) hoperator (.inr ⟨rfl, rfl⟩)

lemma not_ordersStrings_of_ok {b : Bool} (h : c.evaluate .reject r = .ok b) :
    ¬ c.OrdersStrings r := fun hstrings => (fails_of_ordersStrings hstrings).evaluate_ne_ok b h

/-- All other comparisons come to the same. -/
theorem evaluate_lexicographic (h : ¬ c.OrdersStrings r) :
    c.evaluate .lexicographic r = c.evaluate .reject r := by
  obtain ⟨name, operator, literal⟩ := c
  cases hv : r.get? name with
  | none => simp only [evaluate, hv]
  | some v =>
    simp only [evaluate, hv]
    cases v <;> cases literal
    case string.string v l =>
      have hoperator : operator.isEquality = true := by
        by_contra hne
        exact h ⟨Bool.eq_false_iff.mpr hne, v, l, hv, rfl⟩
      simp only [verdict, hoperator, if_true]
    all_goals rfl

lemma fails_lexicographic_iff {error : EvalError} (h : ¬ c.OrdersStrings r) :
    c.Fails .lexicographic r error ↔ c.Fails .reject r error := by
  rw [← evaluate_eq_error_iff, ← evaluate_eq_error_iff, evaluate_lexicographic h]

end Comparison

namespace Expr

/-- The two walks part at the first comparison that orders strings. -/
theorem walk_lexicographic (h : ∀ c ∈ e.visited .reject r, ¬ c.OrdersStrings r) :
    (e.walk fun c => c.evaluate .lexicographic r) = e.walk fun c => c.evaluate .reject r :=
  walk_congr fun c hc => Comparison.evaluate_lexicographic (h c hc)

/-- A walk without errors never meets strings that are ordered. -/
theorem evaluate_lexicographic_of_ok {b : Bool} (h : e.evaluate .reject r = .ok b) :
    e.evaluate .lexicographic r = .ok b := by
  rw [evaluate_eq_walk] at h ⊢
  rw [walk_lexicographic fun c hc => ?_, h]
  obtain ⟨b', hb'⟩ := forall_ask_eq_ok h c hc
  exact Comparison.not_ordersStrings_of_ok hb'

/-- Strings that are ordered end the walk, so there are none before its last comparison. -/
theorem StopsAt.lexicographic {c : Comparison} {error : EvalError}
    (h : e.StopsAt .reject r c error) (hc : ¬ c.OrdersStrings r) :
    e.StopsAt .lexicographic r c error := by
  obtain ⟨⟨front, hvisited, hfront⟩, hfails⟩ := h
  have hstrings : ∀ d ∈ front, ¬ d.OrdersStrings r := fun d hd hstrings =>
    hfront d hd _ (Comparison.fails_of_ordersStrings hstrings)
  have hwalk : e.visited .lexicographic r = e.visited .reject r := by
    refine congrArg Prod.fst (walk_lexicographic ?_)
    rw [hvisited]
    exact List.forall_mem_append.mpr ⟨hstrings, List.forall_mem_singleton.mpr hc⟩
  refine ⟨⟨front, hwalk.trans hvisited, fun d hd error' hd' => ?_⟩, ?_⟩
  · exact hfront d hd error' ((Comparison.fails_lexicographic_iff (hstrings d hd)).mp hd')
  · exact (Comparison.fails_lexicographic_iff hc).mpr hfails

theorem visited_prefix (r : Record) (e : Expr) :
    e.visited .reject r <+: e.visited .lexicographic r :=
  e.walk_prefix fun c b h => by
    rw [Comparison.evaluate_lexicographic (Comparison.not_ordersStrings_of_ok h), h]

end Expr

/-- A decision under the rejection of ordered strings is one without it. An error of another kind
stays, at the same comparison. So the results differ only if the first comparison that cannot be
made is one of order between two strings, and up to there the same comparisons are visited. -/
theorem Node.evaluate_lexicographic_refines (r : Record) (n : Node) :
    (∀ b, n.evaluate .reject r = .ok b → n.evaluate .lexicographic r = .ok b) ∧
    (∀ error, n.evaluate .reject r = .error error → ∃ c, n.expr.StopsAt .reject r c error ∧
      (¬ c.OrdersStrings r → n.evaluate .lexicographic r = .error error ∧
        n.expr.StopsAt .lexicographic r c error)) ∧
    (n.evaluate .lexicographic r ≠ n.evaluate .reject r → ∃ c, c.OrdersStrings r ∧
      n.expr.StopsAt .reject r c (.mismatch c.name .number .string)) ∧
    n.expr.visited .reject r <+: n.expr.visited .lexicographic r := by
  have hok (b : Bool) (h : n.expr.evaluate .reject r = .ok b) :
      n.expr.evaluate .lexicographic r = .ok b := Expr.evaluate_lexicographic_of_ok h
  have herror {c : Comparison} {error : EvalError} (h : n.expr.StopsAt .reject r c error)
      (hc : ¬ c.OrdersStrings r) : n.expr.evaluate .lexicographic r = .error error :=
    Expr.evaluate_eq_error_iff.mpr ⟨c, h.lexicographic hc⟩
  rw [evaluate_eq, evaluate_eq]
  refine ⟨hok, fun error h => ?_, fun hdiffer => ?_, Expr.visited_prefix r n.expr⟩
  · obtain ⟨c, hstops⟩ := Expr.exists_stopsAt h
    exact ⟨c, hstops, fun hc => ⟨herror hstops hc, hstops.lexicographic hc⟩⟩
  · cases h : n.expr.evaluate .reject r with
    | ok b => exact absurd ((hok b h).trans h.symm) hdiffer
    | error error =>
      obtain ⟨c, hstops⟩ := Expr.exists_stopsAt h
      by_cases hc : c.OrdersStrings r
      · obtain rfl := hstops.fails.unique (Comparison.fails_of_ordersStrings hc)
        exact ⟨c, hc, hstops⟩
      · exact absurd ((herror hstops hc).trans h.symm) hdiffer

/-- The operand on the right is passed over in one record, misses its attribute in another and
orders two strings in a third. -/
theorem Node.evaluate_lexicographic_refines_strings :
    let c : Comparison := ⟨"b", .equal, .boolean true⟩
    let d : Comparison := ⟨"a", .less, .string "m"⟩
    let n : Node := .join 2 .or (.leaf 0 c) (.leaf 1 d)
    let held := Record.empty.insert "b" (.boolean true)
    let lacking := Record.empty.insert "b" (.boolean false)
    let ordered := lacking.insert "a" (.string "k")
    n.evaluate .lexicographic held = .ok true ∧
      n.evaluate .lexicographic lacking = .error (.missing "a") ∧
      n.evaluate .reject ordered = .error (.mismatch "a" .number .string) ∧
      n.evaluate .lexicographic ordered = .ok true ∧
      ∃ c, c.OrdersStrings ordered ∧
        n.expr.StopsAt .reject ordered c (.mismatch c.name .number .string) := by
  intro c d n held lacking ordered
  have hheld : n.evaluate .reject held = .ok true := by
    simp only [n, c, held, evaluate, Comparison.evaluate, Record.get?_insert, if_true]
    rfl
  have hlacking : n.evaluate .reject lacking = .error (.missing "a") := by
    simp only [n, c, d, lacking, evaluate, Comparison.evaluate, Record.get?_insert, if_true]
    rfl
  have hordered : n.evaluate .reject ordered = .error (.mismatch "a" .number .string) := by
    simp only [n, c, d, ordered, lacking, evaluate, Comparison.evaluate, Record.get?_insert,
      if_true]
    rfl
  have hallowed : n.evaluate .lexicographic ordered = .ok true := by
    simp only [n, c, d, ordered, lacking, evaluate, Comparison.evaluate, Record.get?_insert,
      if_true]
    rfl
  obtain ⟨hok, -, -, -⟩ := evaluate_lexicographic_refines held n
  obtain ⟨-, herror, -, -⟩ := evaluate_lexicographic_refines lacking n
  obtain ⟨-, -, hdiffer, -⟩ := evaluate_lexicographic_refines ordered n
  obtain ⟨e, hstops, hsame⟩ := herror _ hlacking
  have hstrings : ¬ e.OrdersStrings lacking := fun hstrings => by
    cases hstops.fails.unique (Comparison.fails_of_ordersStrings hstrings)
  refine ⟨hok true hheld, (hsame hstrings).1, hordered, hallowed, hdiffer fun heq => ?_⟩
  rw [hordered, hallowed] at heq
  cases heq

end Criteria
