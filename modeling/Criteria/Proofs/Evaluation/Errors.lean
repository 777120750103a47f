import Criteria.Proofs.Engine.Verdicts
import Criteria.Proofs.Evaluation.Walk

/-! The errors of an evaluation. There is one where a comparison that is visited cannot be made, and
it is about the first such comparison. -/
namespace Criteria

/-- Whether two values of this kind can be compared by the operator. -/
def Operator.Allows (o : Operator) (ordering : StringOrdering) (kind : Kind) : Prop :=
  o.isEquality = true ∨ kind = .number ∨ kind = .string ∧ ordering = .lexicographic

variable {ordering : StringOrdering} {r : Record} {e : Expr} {error : EvalError}

namespace Comparison

variable {c : Comparison}

lemma verdict_of_kind_ne {v : Scalar} (h : v.kind ≠ c.value.kind) :
    c.verdict ordering v = .error (.mismatch c.name c.value.kind v.kind) := by
  obtain ⟨name, operator, literal⟩ := c
  cases v <;> cases literal <;> first | rfl | exact absurd rfl h

lemma verdict_of_order {v : Scalar} (hkind : v.kind = c.value.kind)
    (hoperator : c.operator.isEquality = false)
    (horder : v.kind = .boolean ∨ v.kind = .string ∧ ordering = .reject) :
    c.verdict ordering v = .error (.mismatch c.name .number v.kind) := by
  obtain ⟨name, operator, literal⟩ := c
  cases v <;> cases literal <;> cases hkind
  case number.number => rcases horder with hnumber | ⟨hnumber, -⟩ <;> cases hnumber
  case boolean.boolean =>
    simp only [verdict, hoperator]
    rfl
  case string.string =>
    rcases horder with hstring | ⟨-, rfl⟩
    · cases hstring
    · simp only [verdict, hoperator]
      rfl

lemma exists_verdict {v : Scalar} (hkind : v.kind = c.value.kind)
    (hallows : c.operator.Allows ordering v.kind) : ∃ b, c.verdict ordering v = .ok b := by
  obtain ⟨name, operator, literal⟩ := c
  cases v <;> cases literal <;> cases hkind
  case number.number => exact ⟨_, rfl⟩
  case boolean.boolean =>
    rcases hallows with hoperator | hboolean | ⟨hboolean, -⟩
    · simp [verdict, hoperator]
    · cases hboolean
    · cases hboolean
  case string.string =>
    rcases hallows with hoperator | hstring | ⟨-, rfl⟩
    · simp [verdict, hoperator]
    · cases hstring
    · cases hoperator : operator.isEquality <;> simp [verdict, hoperator]

/-- Why a comparison cannot be made with a record. The value is missing, or it is of another kind
than the literal, or the two have no order. -/
inductive Fails (ordering : StringOrdering) (r : Record) (c : Comparison) : EvalError → Prop
  | missing (h : r.get? c.name = none) : Fails ordering r c (.missing c.name)
  | kind {v : Scalar} (h : r.get? c.name = some v) (hkind : v.kind ≠ c.value.kind) :
      Fails ordering r c (.mismatch c.name c.value.kind v.kind)
  | order {v : Scalar} (h : r.get? c.name = some v) (hkind : v.kind = c.value.kind)
      (hoperator : c.operator.isEquality = false)
      (horder : v.kind = .boolean ∨ v.kind = .string ∧ ordering = .reject) :
      Fails ordering r c (.mismatch c.name .number v.kind)

/-- The record has a value of the kind of the literal, for which the operator is allowed. -/
def Fits (ordering : StringOrdering) (r : Record) (c : Comparison) : Prop :=
  ∃ v, r.get? c.name = some v ∧ v.kind = c.value.kind ∧ c.operator.Allows ordering v.kind

lemma fits_or_fails (ordering : StringOrdering) (r : Record) (c : Comparison) :
    c.Fits ordering r ∨ ∃ error, c.Fails ordering r error := by
  cases h : r.get? c.name with
  | none => exact .inr ⟨_, .missing h⟩
  | some v =>
    by_cases hkind : v.kind = c.value.kind
    · cases hoperator : c.operator.isEquality with
      | true => exact .inl ⟨v, h, hkind, .inl hoperator⟩
      | false =>
        cases hv : v.kind with
        | number => exact .inl ⟨v, h, hkind, .inr (.inl hv)⟩
        | boolean => exact .inr ⟨_, .order h hkind hoperator (.inl hv)⟩
        | string =>
          cases ordering with
          | reject => exact .inr ⟨_, .order h hkind hoperator (.inr ⟨hv, rfl⟩)⟩
          | lexicographic => exact .inl ⟨v, h, hkind, .inr (.inr ⟨hv, rfl⟩)⟩
    · exact .inr ⟨_, .kind h hkind⟩

lemma evaluate_of_fits (h : c.Fits ordering r) : ∃ b, c.evaluate ordering r = .ok b := by
  obtain ⟨v, hv, hkind, hallows⟩ := h
  rw [evaluate, hv]
  exact exists_verdict hkind hallows

lemma evaluate_of_fails (h : c.Fails ordering r error) :
    c.evaluate ordering r = .error error := by
  cases h with
  | missing h => rw [evaluate, h]
  | kind h hkind =>
    rw [evaluate, h]
    exact verdict_of_kind_ne hkind
  | order h hkind hoperator horder =>
    rw [evaluate, h]
    exact verdict_of_order hkind hoperator horder

lemma Fails.evaluate_ne_ok (h : c.Fails ordering r error) (b : Bool) :
    c.evaluate ordering r ≠ .ok b := by
  intro hb
  rw [evaluate_of_fails h] at hb
  cases hb

lemma Fails.unique {error' : EvalError} (h : c.Fails ordering r error)
    (h' : c.Fails ordering r error') : error = error' :=
  Except.error.inj ((evaluate_of_fails h).symm.trans (evaluate_of_fails h'))

theorem evaluate_eq_error_iff :
    c.evaluate ordering r = .error error ↔ c.Fails ordering r error := by
  refine ⟨fun h => ?_, evaluate_of_fails⟩
  rcases fits_or_fails ordering r c with hfits | ⟨error', hfails⟩
  · obtain ⟨b, hb⟩ := evaluate_of_fits hfits
    rw [hb] at h
    cases h
  · rw [evaluate_of_fails hfails] at h
    cases h
    exact hfails

end Comparison

namespace Expr

/-- The walk ends at the comparison, which is the first that cannot be made, for this reason. -/
structure StopsAt (ordering : StringOrdering) (r : Record) (e : Expr) (c : Comparison)
    (error : EvalError) : Prop where
  visited : ∃ front, e.visited ordering r = front ++ [c] ∧
    ∀ d ∈ front, ∀ error, ¬ d.Fails ordering r error
  fails : c.Fails ordering r error

theorem StopsAt.mem_visited {c : Comparison} (h : e.StopsAt ordering r c error) :
    c ∈ e.visited ordering r := by
  obtain ⟨front, hvisited, -⟩ := h.visited
  rw [hvisited]
  exact List.mem_append_right _ (List.mem_singleton_self c)

theorem StopsAt.name_mem {c : Comparison} (h : e.StopsAt ordering r c error) :
    c.name ∈ e.attributes :=
  name_mem_attributes_of_visited h.mem_visited

theorem exists_stopsAt (h : e.evaluate ordering r = .error error) :
    ∃ c, e.StopsAt ordering r c error := by
  rw [evaluate_eq_walk] at h
  obtain ⟨front, c, hvisited, hfront, hc⟩ := exists_ask_eq_error h
  refine ⟨c, ⟨front, hvisited, fun d hd error' hd' => ?_⟩, Comparison.evaluate_eq_error_iff.mp hc⟩
  obtain ⟨b, hb⟩ := hfront d hd
  exact hd'.evaluate_ne_ok b hb

/-- A comparison that is visited and cannot be made leaves no result. -/
theorem exists_error_of_fails {c : Comparison} (hc : c ∈ e.visited ordering r)
    (h : c.Fails ordering r error) : ∃ error, e.evaluate ordering r = .error error := by
  cases he : e.evaluate ordering r with
  | error error' => exact ⟨error', rfl⟩
  | ok b =>
    rw [evaluate_eq_walk] at he
    obtain ⟨b', hb'⟩ := forall_ask_eq_ok he c hc
    exact absurd hb' (h.evaluate_ne_ok b')

/-- Only one comparison can be the first that cannot be made, for it is the last one visited. -/
theorem StopsAt.unique {c c' : Comparison} {error' : EvalError} (h : e.StopsAt ordering r c error)
    (h' : e.StopsAt ordering r c' error') : c = c' ∧ error = error' := by
  obtain ⟨front, hvisited, -⟩ := h.visited
  obtain ⟨front', hvisited', -⟩ := h'.visited
  have hlast : front ++ [c] = front' ++ [c'] := hvisited.symm.trans hvisited'
  obtain ⟨-, hc⟩ := List.append_inj' hlast rfl
  obtain rfl : c = c' := by simpa using hc
  exact ⟨rfl, h.fails.unique h'.fails⟩

/-- An evaluation has an error just if the walk ends at a comparison for this reason. -/
theorem evaluate_eq_error_iff :
    e.evaluate ordering r = .error error ↔ ∃ c, e.StopsAt ordering r c error := by
  refine ⟨exists_stopsAt, fun ⟨c, h⟩ => ?_⟩
  obtain ⟨error', he⟩ := exists_error_of_fails h.mem_visited h.fails
  obtain ⟨c', h'⟩ := exists_stopsAt he
  rw [he, (h.unique h').2]

/-- If all comparisons can be made, there is a result. -/
theorem exists_result (h : ∀ c ∈ e.leaves, c.Fits ordering r) :
    ∃ b, e.evaluate ordering r = .ok b := by
  cases he : e.evaluate ordering r with
  | ok b => exact ⟨b, rfl⟩
  | error error =>
    obtain ⟨c, hstops⟩ := exists_stopsAt he
    obtain ⟨b, hb⟩ := Comparison.evaluate_of_fits (h c (mem_leaves_of_visited hstops.mem_visited))
    exact absurd hb (hstops.fails.evaluate_ne_ok b)

end Expr

/-- The error of an evaluation, if there is one, and what the record is like then. -/
structure Node.ErrorsExact (ordering : StringOrdering) (r : Record) (n : Node) : Prop where
  exists_iff : (∃ error, n.evaluate ordering r = .error error) ↔
    ∃ c ∈ n.expr.visited ordering r, ∃ error, c.Fails ordering r error
  first : ∀ error, n.evaluate ordering r = .error error ↔
    ∃ c, n.expr.StopsAt ordering r c error
  missing : ∀ name, n.evaluate ordering r = .error (.missing name) →
    name ∈ n.expr.attributes ∧ r.get? name = none
  mismatch : ∀ name expected found,
    n.evaluate ordering r = .error (.mismatch name expected found) →
    name ∈ n.expr.attributes ∧ ∃ c v, n.expr.StopsAt ordering r c (.mismatch name expected found) ∧
      c.name = name ∧ r.get? name = some v ∧ found = v.kind ∧
      (v.kind ≠ c.value.kind ∧ expected = c.value.kind ∨
        v.kind = c.value.kind ∧ c.operator.isEquality = false ∧ expected = .number ∧
          (v.kind = .boolean ∨ v.kind = .string ∧ ordering = .reject))
  complete : (∀ name ∈ n.expr.attributes, r.contains name = true) →
    ∀ name, n.evaluate ordering r ≠ .error (.missing name)
  fitting : (∀ c ∈ n.expr.leaves, c.Fits ordering r) → ∃ b, n.evaluate ordering r = .ok b

theorem Node.errorsExact (ordering : StringOrdering) (r : Record) (n : Node) :
    n.ErrorsExact ordering r := by
  have hmissing (name : String) (h : n.evaluate ordering r = .error (.missing name)) :
      name ∈ n.expr.attributes ∧ r.get? name = none := by
    rw [evaluate_eq] at h
    obtain ⟨c, hstops⟩ := Expr.exists_stopsAt h
    cases hstops.fails with
    | missing hnone => exact ⟨hstops.name_mem, hnone⟩
  constructor
  case exists_iff =>
    rw [evaluate_eq]
    constructor
    · rintro ⟨error, h⟩
      obtain ⟨c, hstops⟩ := Expr.exists_stopsAt h
      exact ⟨c, hstops.mem_visited, error, hstops.fails⟩
    · rintro ⟨c, hc, error, h⟩
      exact Expr.exists_error_of_fails hc h
  case first =>
    rw [evaluate_eq]
    exact fun error => Expr.evaluate_eq_error_iff
  case missing => exact hmissing
  case mismatch =>
    intro name expected found h
    rw [evaluate_eq] at h
    obtain ⟨c, hstops⟩ := Expr.exists_stopsAt h
    have hname := hstops.name_mem
    cases hstops.fails with
    | @kind v hv hkind => exact ⟨hname, c, v, hstops, rfl, hv, rfl, .inl ⟨hkind, rfl⟩⟩
    | @order v hv hkind hoperator horder =>
      exact ⟨hname, c, v, hstops, rfl, hv, rfl, .inr ⟨hkind, hoperator, rfl, horder⟩⟩
  case complete =>
    intro h name herror
    obtain ⟨hname, hnone⟩ := hmissing name herror
    have hcontains := h name hname
    rw [Record.contains_eq_isSome, hnone] at hcontains
    cases hcontains
  case fitting =>
    rw [evaluate_eq]
    exact Expr.exists_result

namespace Engine

variable {e : Engine} {id : RuleId} {rule : Rule}

theorem attributes_of_find (h : e.find id = .ok rule) :
    e.attributes id = .ok rule.node.expr.attributes := by
  simp only [attributes, h]
  rfl

theorem evaluateRule_eq_error {error : EvalError} {record : Record} (h : e.find id = .ok rule)
    (herror : e.evaluateRule id record = .error (.evaluation error)) :
    rule.node.evaluate e.settings.ordering record = .error error := by
  rw [evaluateRule_of_find h, evaluateNode] at herror
  cases hresult : rule.node.evaluate e.settings.ordering record with
  | ok b =>
    rw [hresult] at herror
    cases herror
  | error error' =>
    rw [hresult] at herror
    cases herror
    rfl

end Engine

/-- The errors of all evaluations are exact. So no attribute is missed in a record that has those
which an engine gives for a rule, and a record that fits the comparisons of the rule gets a
result. -/
theorem evaluation_errors_exact :
    (∀ ordering r n, Node.ErrorsExact ordering r n) ∧
    ∀ (e : Engine) (id : RuleId) (rule : Rule) (record : Record), e.find id = .ok rule →
      ∃ names, e.attributes id = .ok names ∧
        ((∀ name ∈ names, record.contains name = true) →
          ∀ name, e.evaluateRule id record ≠ .error (.evaluation (.missing name))) ∧
        ((∀ c ∈ rule.node.expr.leaves, c.Fits e.settings.ordering record) →
          ∃ b, e.evaluateRule id record = .ok b) := by
  refine ⟨Node.errorsExact, fun e id rule record h => ?_⟩
  have hexact := rule.node.errorsExact e.settings.ordering record
  refine ⟨_, Engine.attributes_of_find h, fun hnames name herror => ?_, fun hfits => ?_⟩
  · exact hexact.complete hnames name (Engine.evaluateRule_eq_error h herror)
  · obtain ⟨b, hb⟩ := hexact.fitting hfits
    exact ⟨b, by rw [Engine.evaluateRule_of_find h, Engine.evaluateNode, hb, Except.mapError]⟩

/-- Two strings are ordered in the second operand, which one engine rejects and another allows. -/
theorem evaluation_errors_exact_strings :
    let c : Comparison := ⟨"b", .equal, .boolean true⟩
    let d : Comparison := ⟨"a", .less, .string "m"⟩
    let n : Node := .join 3 .or (.not 1 (.leaf 0 c)) (.leaf 2 d)
    let r := (Record.empty.insert "a" (.string "k")).insert "b" (.boolean true)
    (n.evaluate .reject r = .error (.mismatch "a" .number .string) ∧
      n.expr.StopsAt .reject r d (.mismatch "a" .number .string)) ∧
    ∃ e : Engine, e.settings.ordering = .lexicographic ∧ e.find 1 = .ok ⟨1, n.expr.text, n⟩ ∧
      (∀ name, e.evaluateRule 1 r ≠ .error (.evaluation (.missing name))) ∧
      ∃ b, e.evaluateRule 1 r = .ok b := by
  intro c d n r
  obtain ⟨hexact, hengine⟩ := evaluation_errors_exact
  have hb : r.get? "b" = some (.boolean true) := by decide +kernel
  have ha : r.get? "a" = some (.string "k") := by decide +kernel
  have hstops : n.expr.StopsAt .reject r d (.mismatch "a" .number .string) := by
    have hvisited : n.expr.visited .reject r = [c] ++ [d] := by decide +kernel
    refine ⟨⟨[c], hvisited, List.forall_mem_singleton.mpr fun error hfails => ?_⟩, ?_⟩
    · have hfits : c.Fits .reject r := ⟨_, hb, rfl, .inl rfl⟩
      obtain ⟨b, hresult⟩ := Comparison.evaluate_of_fits hfits
      exact hfails.evaluate_ne_ok b hresult
    · exact .order (v := .string "k") ha rfl rfl (.inr ⟨rfl, rfl⟩)
  have herror := ((hexact .reject r n).first _).mpr ⟨d, hstops⟩
  let e : Engine := Engine.keep { settings := { ordering := .lexicographic } } n.expr.text n
  have hfind : e.find 1 = .ok ⟨1, n.expr.text, n⟩ := Engine.find_keep _ n.expr.text n 1
  obtain ⟨names, hnames, hcomplete, hfitting⟩ := hengine e 1 _ r hfind
  rw [Engine.attributes_of_find hfind] at hnames
  cases hnames
  have hheld : ∀ name ∈ n.expr.attributes, r.contains name = true := by
    have hattributes : n.expr.attributes = ["b", "a"] := by decide +kernel
    rw [hattributes]
    decide +kernel
  have hfits : ∀ c ∈ n.expr.leaves, c.Fits .lexicographic r :=
    List.forall_mem_cons.mpr ⟨⟨_, hb, rfl, .inl rfl⟩,
      List.forall_mem_singleton.mpr ⟨_, ha, rfl, .inr (.inr ⟨rfl, rfl⟩)⟩⟩
  exact ⟨⟨herror, hstops⟩, e, rfl, hfind, hcomplete hheld, hfitting hfits⟩

end Criteria
