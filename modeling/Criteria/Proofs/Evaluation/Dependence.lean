import Criteria.Node.Basic
import Criteria.Proofs.Evaluation.Walk

/-! What the result of a rule depends on. Records that agree on the attributes that are looked at
give one result, and these attributes are among those that the rule names. -/
namespace Criteria

/-- What the other record holds is held here with the same value. -/
def Record.Extends (r' r : Record) : Prop :=
  ∀ name v, r.get? name = some v → r'.get? name = some v

variable {ordering : StringOrdering} {r r' : Record}

theorem Record.extends_insert {name : String} (h : r.get? name = none) (v : Scalar) :
    (r.insert name v).Extends r := by
  intro other w hw
  have hne : name ≠ other := by
    rintro rfl
    rw [h] at hw
    cases hw
  rw [get?_insert, if_neg hne, hw]

namespace Comparison

variable {c : Comparison} {b : Bool}

/-- A comparison reads the one attribute that it names. -/
lemma evaluate_congr (h : r'.get? c.name = r.get? c.name) :
    c.evaluate ordering r' = c.evaluate ordering r := by
  rw [evaluate, evaluate, h]

lemma exists_value_of_evaluate (h : c.evaluate ordering r = .ok b) :
    ∃ v, r.get? c.name = some v := by
  cases hv : r.get? c.name with
  | none => simp [evaluate, hv] at h
  | some v => exact ⟨v, rfl⟩

end Comparison

namespace Expr

variable {e : Expr}

/-- Two records that agree on what is visited with the first are walked over in the same way. -/
theorem walk_congr_record (h : ∀ c ∈ e.visited ordering r, r'.get? c.name = r.get? c.name) :
    (e.walk fun c => c.evaluate ordering r') = e.walk fun c => c.evaluate ordering r :=
  walk_congr fun c hc => Comparison.evaluate_congr (h c hc)

/-- Nothing that was visited on the way to a result was missing, so a larger record holds the
same. -/
theorem get?_of_extends {b : Bool} (h : r'.Extends r) (hb : e.evaluate ordering r = .ok b) :
    ∀ c ∈ e.visited ordering r, r'.get? c.name = r.get? c.name := by
  intro c hc
  rw [evaluate_eq_walk] at hb
  obtain ⟨_, hc⟩ := forall_ask_eq_ok hb c hc
  obtain ⟨v, hv⟩ := Comparison.exists_value_of_evaluate hc
  rw [hv, h _ v hv]

end Expr

/-- A result, be it a decision or an error, depends on the attributes that are visited and so on
those that the rule names. A decision also stands when the record gets further attributes. -/
theorem Node.evaluate_depends_on_visited (ordering : StringOrdering) (r r' : Record) (n : Node) :
    ((∀ c ∈ n.expr.visited ordering r, r'.get? c.name = r.get? c.name) →
      n.evaluate ordering r' = n.evaluate ordering r ∧
        n.expr.visited ordering r' = n.expr.visited ordering r) ∧
    ((∀ name ∈ n.expr.attributes, r'.get? name = r.get? name) →
      n.evaluate ordering r' = n.evaluate ordering r) ∧
    (r'.Extends r → ∀ b, n.evaluate ordering r = .ok b → n.evaluate ordering r' = .ok b) := by
  have hagree (h : ∀ c ∈ n.expr.visited ordering r, r'.get? c.name = r.get? c.name) :
      n.evaluate ordering r' = n.evaluate ordering r ∧
        n.expr.visited ordering r' = n.expr.visited ordering r := by
    have hwalk := Expr.walk_congr_record h
    rw [evaluate_eq, evaluate_eq, Expr.evaluate_eq_walk, Expr.evaluate_eq_walk, hwalk,
      Expr.visited, hwalk]
    exact ⟨rfl, rfl⟩
  refine ⟨hagree, fun h => ?_, fun h b hb => ?_⟩
  · exact (hagree fun c hc => h c.name (Expr.name_mem_attributes_of_visited hc)).1
  · have hexpr : n.expr.evaluate ordering r = .ok b := n.evaluate_eq ordering r ▸ hb
    rw [(hagree (Expr.get?_of_extends h hexpr)).1, hb]

/-- The comparison on the right is passed over in records where it could not be made. Where it is
looked at, an attribute of another name does not help. -/
theorem Node.evaluate_depends_on_visited_guarded :
    let guard : Comparison := ⟨"a", .equal, .boolean true⟩
    let guarded : Comparison := ⟨"b", .less, .boolean true⟩
    let n : Node := .join 2 .and (.leaf 0 guard) (.leaf 1 guarded)
    let shut := Record.empty.insert "a" (.boolean false)
    let opened := Record.empty.insert "a" (.boolean true)
    (n.expr.visited .reject shut = [guard] ∧ n.evaluate .reject shut = .ok false ∧
      n.evaluate .reject (shut.insert "b" (.boolean true)) = .ok false ∧
      n.evaluate .reject (shut.insert "z" (.boolean true)) = .ok false) ∧
    n.evaluate .reject opened = .error (.missing "b") ∧
      n.evaluate .reject (opened.insert "z" (.boolean true)) = .error (.missing "b") := by
  intro guard guarded n shut opened
  have hvisited : n.expr.visited .reject shut = [guard] := by decide +kernel
  have hshut : n.evaluate .reject shut = .ok false := by
    simp only [n, shut, guard, evaluate, Comparison.evaluate, Record.get?_insert, if_true]
    rfl
  have hopened : n.evaluate .reject opened = .error (.missing "b") := by
    simp only [n, opened, guard, evaluate, Comparison.evaluate, Record.get?_insert, if_true]
    rfl
  have hguard : ∀ c ∈ n.expr.visited .reject shut,
      (shut.insert "b" (.boolean true)).get? c.name = shut.get? c.name := by
    rw [hvisited]
    decide +kernel
  have hnames : ∀ name ∈ n.expr.attributes,
      (opened.insert "z" (.boolean true)).get? name = opened.get? name := by
    decide +kernel
  have hextends : (shut.insert "z" (.boolean true)).Extends shut :=
    Record.extends_insert (by decide +kernel) _
  obtain ⟨hagree, -, -⟩ := evaluate_depends_on_visited .reject shut _ n
  obtain ⟨-, hnamed, -⟩ := evaluate_depends_on_visited .reject opened _ n
  obtain ⟨-, -, hmore⟩ := evaluate_depends_on_visited .reject shut _ n
  exact ⟨⟨hvisited, hshut, (hagree hguard).1.trans hshut, hmore hextends false hshut⟩,
    hopened, (hnamed hnames).trans hopened⟩

end Criteria
