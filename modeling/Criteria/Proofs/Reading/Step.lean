import Criteria.Expr.Reader
import Criteria.Proofs.Grammar

/-! The reader of token lists, taken apart: what one token does to a state, and when an operator
makes an expression that is too deep. -/
namespace Criteria.Expr

namespace Measured

theorem ext {l m : Measured} (h : l.expr = m.expr) : l = m := by
  obtain ⟨e, _, rfl⟩ := l
  obtain ⟨f, _, rfl⟩ := m
  cases h
  rfl

/-- An expression with the levels that it has. -/
def of (e : Expr) : Measured := ⟨e, e.depth, rfl⟩

theorem of_expr (m : Measured) : of m.expr = m := ext rfl

theorem of_leaf (c : Comparison) : of (.leaf c) = leaf c := ext rfl

theorem of_join (o : Connective) (l r : Expr) : of (.join o l r) = join o (of l) (of r) := ext rfl

theorem of_not (e : Expr) : of (.not e) = (of e).not := ext rfl

end Measured

namespace Reader

variable {limits : Limits} {s s' : State} {t : Token} {ts us : List Token} {m : Measured}

/-- Takes tokens one after the other. -/
def run (limits : Limits) (tokens : List Token) (s : State) : Except ParseError State :=
  tokens.foldlM (State.step limits) s

theorem run_cons_ok (h : s.step limits t = .ok s') : run limits (t :: ts) s = run limits ts s' := by
  simp only [run, List.foldlM_cons, h]
  rfl

theorem run_cons_error {error : ParseError} (h : s.step limits t = .error error) :
    run limits (t :: ts) s = .error error := by
  simp only [run, List.foldlM_cons, h]
  rfl

theorem run_append_ok (h : run limits ts s = .ok s') :
    run limits (ts ++ us) s = run limits us s' := by
  simp only [run, List.foldlM_append] at h ⊢
  rw [h]
  rfl

theorem run_append_error {error : ParseError} (h : run limits ts s = .error error) :
    run limits (ts ++ us) s = .error error := by
  simp only [run, List.foldlM_append] at h ⊢
  rw [h]
  rfl

theorem run_singleton : run limits [t] s = s.step limits t := by
  cases h : s.step limits t with
  | error error => exact run_cons_error h
  | ok s' => exact run_cons_ok h

/-- The chain that an operand ends. -/
def chained (connective : Connective) (right : Measured) : Option Pending → Measured
  | none => right
  | some pending => .join connective pending.left right

/-- An operand with the NOT in front of it. -/
def negated (m : Measured) : Option Token → Measured
  | none => m
  | some _ => m.not

theorem joined_cases (limits : Limits) (connective : Connective) (right : Measured)
    (pending : Option Pending) :
    joined limits connective right pending = .ok (chained connective right pending) ∨
      limits.depth < (chained connective right pending).expr.depth ∧
        ∃ t, joined limits connective right pending = unexpected .shallowerTree t := by
  cases pending with
  | none => exact .inl rfl
  | some p =>
    simp only [joined, checked]
    split
    · rename_i h
      exact .inr ⟨Measured.depth_eq _ ▸ h, _, rfl⟩
    · exact .inl rfl

theorem joined_eq_ok {connective : Connective} {right : Measured} {pending : Option Pending}
    (h : joined limits connective right pending = .ok m) :
    m = chained connective right pending ∧
      (right.depth ≤ limits.depth → m.depth ≤ limits.depth) := by
  cases pending with
  | none =>
    cases h
    exact ⟨rfl, id⟩
  | some p =>
    simp only [joined, checked] at h
    split at h
    · cases h
    · cases h
      exact ⟨rfl, fun _ => by omega⟩

/-- The operand that a frame makes of an atom. -/
def Frame.operand (f : Frame) (m : Measured) : Measured :=
  chained .and (negated m f.negation) f.conjunction

/-- The state after an atom. -/
def State.after (s : State) (m : Measured) : State :=
  { s with
    frame := { disjunction := s.frame.disjunction }
    stage := .operand (s.frame.operand m) }

theorem complete_plain (limits : Limits) {f : Frame} (hf : f.negation = none) (outer : List Frame)
    (stage : Stage) (m : Measured) : State.complete limits ⟨f, outer, stage⟩ m =
      (joined limits .and m f.conjunction).map fun m =>
        ⟨{ disjunction := f.disjunction }, outer, .operand m⟩ := by
  simp only [State.complete, hf, bind, pure, Except.bind, Except.pure]
  cases joined limits .and m f.conjunction <;> rfl

theorem complete_negated {f : Frame} (hf : f.negation = some t) (outer : List Frame)
    (stage : Stage) (m : Measured) : State.complete limits ⟨f, outer, stage⟩ m =
      if limits.depth < m.not.depth then unexpected .shallowerTree t
      else State.complete limits ⟨{ f with negation := none }, outer, stage⟩ m.not := by
  simp only [State.complete, hf, checked]
  split <;> rfl

theorem complete_eq_ok (h : s.complete limits m = .ok s') :
    s' = s.after m ∧ (m.depth ≤ limits.depth → (s.frame.operand m).depth ≤ limits.depth) := by
  obtain ⟨⟨disjunction, conjunction, negation⟩, outer, stage⟩ := s
  have main {m : Measured}
      (h : State.complete limits ⟨⟨disjunction, conjunction, none⟩, outer, stage⟩ m = .ok s') :
      s' = ⟨{ disjunction }, outer, .operand (chained .and m conjunction)⟩ ∧
        (m.depth ≤ limits.depth → (chained .and m conjunction).depth ≤ limits.depth) := by
    rw [complete_plain limits rfl] at h
    cases hj : joined limits .and m conjunction with
    | error error => simp [hj, Except.map] at h
    | ok m' =>
      obtain ⟨rfl, hd⟩ := joined_eq_ok hj
      simp only [hj, Except.map, Except.ok.injEq] at h
      exact ⟨h.symm, hd⟩
  cases negation with
  | none => exact main h
  | some t =>
    rw [complete_negated rfl] at h
    split at h
    · cases h
    · rename_i hd
      obtain ⟨hs, hle⟩ := main h
      exact ⟨hs, fun _ => hle (by omega)⟩

/-- What one token does where it can stand. -/
inductive Takes (limits : Limits) : State → Token → State → Prop
  | not {f outer t} (hf : f.negation = none) (ht : t.kind = .not) :
      Takes limits ⟨f, outer, .start⟩ t ⟨{ f with negation := some t }, outer, .start⟩
  | opening {f outer t} (hn : outer.length < limits.nesting) (ht : t.kind = .opening) :
      Takes limits ⟨f, outer, .start⟩ t ⟨{}, f :: outer, .start⟩
  | name {f outer t name} (ht : t.kind = .identifier name) :
      Takes limits ⟨f, outer, .start⟩ t ⟨f, outer, .name name⟩
  | operator {f outer t name operator} (ht : t.kind = .comparison operator) :
      Takes limits ⟨f, outer, .name name⟩ t ⟨f, outer, .operator name operator⟩
  | literal {f outer t name operator value s'} (ht : t.kind = .literal value)
      (hs : State.complete limits ⟨f, outer, .start⟩ (.leaf ⟨name, operator, value⟩) = .ok s') :
      Takes limits ⟨f, outer, .operator name operator⟩ t s'
  | and {f outer t m} (ht : t.kind = .connective .and) :
      Takes limits ⟨f, outer, .operand m⟩ t ⟨{ f with conjunction := some ⟨m, t⟩ }, outer, .start⟩
  | or {f outer t m m'} (ht : t.kind = .connective .or)
      (hm : joined limits .or m f.disjunction = .ok m') :
      Takes limits ⟨f, outer, .operand m⟩ t ⟨{ disjunction := some ⟨m', t⟩ }, outer, .start⟩
  | closing {f g outer t m m' s'} (ht : t.kind = .closing)
      (hm : joined limits .or m f.disjunction = .ok m')
      (hs : State.complete limits ⟨g, outer, .start⟩ m' = .ok s') :
      Takes limits ⟨f, g :: outer, .operand m⟩ t s'

theorem takes_of_step (h : s.step limits t = .ok s') : Takes limits s t s' := by
  obtain ⟨f, outer, stage⟩ := s
  cases stage with
  | start =>
    simp only [State.step] at h
    split at h
    · rename_i ht
      split at h
      · cases h
      · rename_i hf
        cases h
        exact .not (by simpa using hf) ht
    · rename_i ht
      split at h
      · cases h
      · rename_i hn
        cases h
        exact .opening (by omega) ht
    · rename_i name ht
      cases h
      exact .name ht
    · cases h
  | name name =>
    simp only [State.step] at h
    split at h
    · rename_i ht
      cases h
      exact .operator ht
    · cases h
  | operator name operator =>
    simp only [State.step] at h
    split at h
    · rename_i ht
      exact .literal ht h
    · cases h
  | operand m =>
    simp only [State.step] at h
    split at h
    · rename_i ht
      cases h
      exact .and ht
    · rename_i ht
      cases hm : joined limits .or m f.disjunction with
      | error error => simp [hm, bind, Except.bind] at h
      | ok m' =>
        simp only [hm, bind, Except.bind, pure, Except.pure, Except.ok.injEq] at h
        subst h
        exact .or ht hm
    · cases hm : joined limits .or m f.disjunction with
      | error error => simp [hm, bind, Except.bind] at h
      | ok m' =>
        simp only [hm, bind, Except.bind] at h
        split at h
        · rename_i hk
          exact .closing hk hm h
        · cases h
        · cases h

theorem step_of_takes (h : Takes limits s t s') : s.step limits t = .ok s' := by
  cases h with
  | not hf ht => simp [State.step, ht, hf]
  | opening hn ht => simp [State.step, ht, Nat.not_le.mpr hn]
  | name ht => simp [State.step, ht]
  | operator ht => simp [State.step, ht]
  | literal ht hs =>
    simp only [State.step, ht]
    exact hs
  | and ht => simp [State.step, ht]
  | or ht hm => simp [State.step, ht, hm, bind, Except.bind, pure, Except.pure]
  | closing ht hm hs => simpa [State.step, ht, hm, bind, Except.bind] using hs

theorem step_or (ht : t.kind = .connective .or) (f : Frame) (outer : List Frame) (m : Measured) :
    State.step limits ⟨f, outer, .operand m⟩ t = (joined limits .or m f.disjunction).map fun m =>
      ⟨{ disjunction := some ⟨m, t⟩ }, outer, .start⟩ := by
  simp only [State.step, ht, bind, Except.bind, pure, Except.pure]
  cases joined limits .or m f.disjunction <;> rfl

theorem step_closing (ht : t.kind = .closing) (f g : Frame) (outer : List Frame) (m : Measured) :
    State.step limits ⟨f, g :: outer, .operand m⟩ t =
      joined limits .or m f.disjunction >>= State.complete limits ⟨g, outer, .start⟩ := by
  simp only [State.step, ht]

end Reader
end Criteria.Expr
