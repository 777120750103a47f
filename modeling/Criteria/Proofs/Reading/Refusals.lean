import Criteria.Proofs.Reading.Fronts

/-! Why the reader of token lists does not take a token: the token cannot stand there, or it is one
parenthesis too many, or it completes an operand that an operator makes too deep. -/
namespace Criteria.Expr.Reader

variable {limits : Limits} {s s' : State} {t : Token} {ts us : List Token} {m : Measured}
  {error : ParseError}

def tooDeep (operator : Token) : ParseError := ⟨operator.position, .shallowerTree, some operator⟩

theorem joined_eq_error {connective : Connective} {right : Measured} {pending : Option Pending}
    (h : joined limits connective right pending = .error error) : ∃ p, pending = some p ∧
      limits.depth < (Measured.join connective p.left right).depth ∧
      error = tooDeep p.operator := by
  cases pending with
  | none => cases h
  | some p =>
    simp only [joined, checked] at h
    split at h
    · rename_i hd
      cases h
      exact ⟨p, rfl, hd, rfl⟩
    · cases h

/-- The operators that can make an operand too deep where it is complete. -/
inductive Overgrown (limits : Limits) (f : Frame) (m : Measured) : ParseError → Prop
  | not {t : Token} (hf : f.negation = some t) (hd : limits.depth < m.not.depth) :
      Overgrown limits f m (tooDeep t)
  | and {p : Pending} (hf : f.conjunction = some p) (hle : m.depth ≤ limits.depth →
        (negated m f.negation).depth ≤ limits.depth)
      (hd : limits.depth < (Measured.join .and p.left (negated m f.negation)).depth) :
      Overgrown limits f m (tooDeep p.operator)

theorem overgrown_of_complete {f : Frame} {outer : List Frame} {stage : Stage}
    (h : State.complete limits ⟨f, outer, stage⟩ m = .error error) :
    Overgrown limits f m error := by
  have hjoined {f : Frame} {m : Measured} (hf : f.negation = none)
      (h : State.complete limits ⟨f, outer, stage⟩ m = .error error) :
      joined limits .and m f.conjunction = .error error := by
    rw [complete_plain limits hf] at h
    cases hj : joined limits .and m f.conjunction with
    | error _ => simpa [hj, Except.map] using h
    | ok _ => simp [hj, Except.map] at h
  obtain ⟨disjunction, conjunction, negation⟩ := f
  cases negation with
  | none =>
    obtain ⟨p, rfl, hd, rfl⟩ := joined_eq_error (hjoined rfl h)
    exact .and rfl id hd
  | some t =>
    rw [complete_negated rfl] at h
    split at h
    · rename_i hd
      cases h
      exact .not rfl hd
    · rename_i hd
      obtain ⟨p, rfl, hp, rfl⟩ := joined_eq_error (hjoined rfl h)
      exact .and rfl (fun _ => Nat.not_lt.mp hd) hp

/-- Why a token is not taken: it cannot stand there, or a limit stands against it. -/
inductive Fails (limits : Limits) : State → Token → ParseError → Prop
  | misplaced {s t expected} (hn : expected ≠ .shallowerNesting) (hd : expected ≠ .shallowerTree) :
      Fails limits s t ⟨t.position, expected, some t⟩
  | nested {f outer t} (ht : t.kind = .opening) (hn : limits.nesting ≤ outer.length) :
      Fails limits ⟨f, outer, .start⟩ t ⟨t.position, .shallowerNesting, some t⟩
  | literal {f outer t name operator value error} (ht : t.kind = .literal value)
      (h : Overgrown limits f (.leaf ⟨name, operator, value⟩) error) :
      Fails limits ⟨f, outer, .operator name operator⟩ t error
  | chained {f outer t m error} (ht : t.kind ≠ .connective .and)
      (h : joined limits .or m f.disjunction = .error error) :
      Fails limits ⟨f, outer, .operand m⟩ t error
  | closing {f g outer t m m' error} (ht : t.kind = .closing)
      (hm : joined limits .or m f.disjunction = .ok m') (h : Overgrown limits g m' error) :
      Fails limits ⟨f, g :: outer, .operand m⟩ t error

/-- A chain of ORs is found to be too deep by the token behind it, which may be any but an AND. -/
theorem step_of_joined_error (hand : t.kind ≠ .connective .and) {f : Frame} {outer : List Frame}
    (h : joined limits .or m f.disjunction = .error error) :
    State.step limits ⟨f, outer, .operand m⟩ t = .error error := by
  simp only [State.step, h]
  split
  · contradiction
  · rfl
  · rfl

theorem fails_of_step (h : s.step limits t = .error error) : Fails limits s t error := by
  obtain ⟨f, outer, stage⟩ := s
  cases stage with
  | start =>
    simp only [State.step] at h
    split at h
    · split at h <;> cases h
      exact .misplaced (by simp) (by simp)
    · rename_i ht
      split at h <;> cases h
      exact .nested ht ‹_›
    · cases h
    · cases h
      exact .misplaced (by simp) (by simp)
  | name name =>
    simp only [State.step] at h
    split at h <;> cases h
    exact .misplaced (by simp) (by simp)
  | operator name operator =>
    simp only [State.step] at h
    split at h
    · exact .literal ‹_› (overgrown_of_complete h)
    · cases h
      exact .misplaced (by simp) (by simp)
  | operand m =>
    by_cases hand : t.kind = .connective .and
    · rw [step_of_takes (.and hand)] at h
      cases h
    cases hj : joined limits .or m f.disjunction with
    | error error' =>
      rw [step_of_joined_error hand hj] at h
      cases h
      exact .chained hand hj
    | ok m' =>
      simp only [State.step] at h
      split at h
      · contradiction
      · simp [hj, bind, Except.bind, pure, Except.pure] at h
      · simp only [hj, bind, Except.bind] at h
        split at h
        · exact .closing ‹_› hj (overgrown_of_complete h)
        · cases h
          exact .misplaced (by simp) (by simp)
        · cases h
          exact .misplaced (by simp) (by simp)

/-- A step that does not find a chain of ORs too deep leaves it within the limit. -/
theorem settled_of_step (h : ∀ error, s.step limits t = .error error →
    error.expected ≠ .shallowerTree) : s.Settled limits (t :: ts) := by
  obtain ⟨f, outer, stage⟩ := s
  rintro right rfl hback
  cases hj : joined limits .or right f.disjunction with
  | ok e => exact ⟨e, rfl⟩
  | error error =>
    obtain ⟨p, -, -, rfl⟩ := joined_eq_error hj
    exact absurd rfl (h _ (step_of_joined_error (hback t rfl) hj))

theorem settled_of_step_error (h : s.step limits t = .error error)
    (hd : error.expected ≠ .shallowerTree) : s.Settled limits (t :: ts) := by
  refine settled_of_step fun error' herror => ?_
  cases herror.symm.trans h
  exact hd

theorem settled_of_finish {position : ℕ} (h : s.finish limits position = .error error)
    (hd : error.expected ≠ .shallowerTree) : s.Settled limits [] := by
  obtain ⟨f, outer, stage⟩ := s
  rintro right rfl -
  cases hj : joined limits .or right f.disjunction with
  | ok e => exact ⟨e, rfl⟩
  | error error' =>
    obtain ⟨p, -, -, rfl⟩ := joined_eq_error hj
    simp only [State.finish, hj] at h
    cases h
    exact absurd rfl hd

/-- The operands that wait in a frame are not too deep. -/
structure Frame.Bounded (limits : Limits) (f : Frame) : Prop where
  disjunction : ∀ p ∈ f.disjunction, p.left.depth ≤ limits.depth
  conjunction : ∀ p ∈ f.conjunction, p.left.depth ≤ limits.depth

structure State.Bounded (limits : Limits) (s : State) : Prop where
  frame : s.frame.Bounded limits
  outer : ∀ f ∈ s.outer, f.Bounded limits
  operand : ∀ m, s.stage = .operand m → m.depth ≤ limits.depth

theorem State.Bounded.after {f : Frame} {outer : List Frame} {stage : Stage}
    (hf : f.Bounded limits) (ho : ∀ g ∈ outer, g.Bounded limits) (hm : m.depth ≤ limits.depth)
    (h : State.complete limits ⟨f, outer, stage⟩ m = .ok s') : s'.Bounded limits := by
  obtain ⟨rfl, hd⟩ := complete_eq_ok h
  refine ⟨⟨hf.disjunction, by simp [State.after]⟩, ho, ?_⟩
  rintro _ ⟨⟩
  exact hd hm

theorem State.Bounded.step (hl : 0 < limits.depth) (hs : s.Bounded limits)
    (h : Takes limits s t s') : s'.Bounded limits := by
  obtain ⟨hframe, houter, hoperand⟩ := hs
  cases h with
  | not _ _ => exact ⟨⟨hframe.disjunction, hframe.conjunction⟩, houter, by simp⟩
  | opening _ _ =>
    exact ⟨⟨by simp, by simp⟩, List.forall_mem_cons.mpr ⟨hframe, houter⟩, by simp⟩
  | name _ | operator _ => exact ⟨hframe, houter, by simp⟩
  | literal _ hc => exact .after (m := .leaf _) hframe houter hl hc
  | and _ => exact ⟨⟨hframe.disjunction, by simpa using hoperand _ rfl⟩, houter, by simp⟩
  | or _ hj =>
    have hle := (joined_eq_ok hj).2 (hoperand _ rfl)
    exact ⟨⟨by simpa using hle, by simp⟩, houter, by simp⟩
  | closing _ hj hc =>
    obtain ⟨hg, houter⟩ := List.forall_mem_cons.mp houter
    exact .after hg houter ((joined_eq_ok hj).2 (hoperand _ rfl)) hc

theorem State.Bounded.run (hl : 0 < limits.depth) (hs : s.Bounded limits)
    (h : run limits ts s = .ok s') : s'.Bounded limits := by
  induction ts generalizing s with
  | nil =>
    cases h
    exact hs
  | cons t ts ih =>
    obtain ⟨_, htakes, hrun⟩ := exists_step_of_cons h
    exact ih (hs.step hl htakes) hrun

theorem initial_bounded : State.Bounded limits {} :=
  ⟨⟨by simp, by simp⟩, by simp, by simp⟩

/-- The tokens up to a parenthesis that is open. -/
theorem OuterReads.starts {outer : List Frame} (ho : OuterReads outer ts) (level : Level) :
    Starts level ts := by
  cases ho with
  | nil => simp [Starts]
  | cons _ _ ht => simp [Starts, ht]

theorem OuterReads.starts_conjunction {outer : List Frame} {d : Option Pending}
    (ho : OuterReads outer ts) (hd : Waits .disjunction .or d us) :
    Starts .conjunction (ts ++ us) := by
  cases hd with
  | none => simpa using ho.starts .conjunction
  | some _ ht => simp [Starts, ht]

/-- A frame and an atom make up what waits for an OR, what waits for an AND, and a negation. -/
theorem Frame.Reads.negation {f : Frame} (hf : f.Reads ts) (hm : Derives .atom us m.expr) :
    ∃ ds cs ns, ts ++ us = ds ++ (cs ++ ns) ∧ Waits .disjunction .or f.disjunction ds ∧
      Waits .conjunction .and f.conjunction cs ∧
      Derives .negation ns (Reader.negated m f.negation).expr := by
  cases hf with
  | plain hd hc => exact ⟨_, _, us, List.append_assoc .., hd, hc, .plain hm⟩
  | @negated _ _ t _ _ hd hc ht =>
    refine ⟨_, _, t :: us, ?_, hd, hc, .not ht hm⟩
    simp only [List.append_assoc, List.cons_append, List.nil_append]

lemma depth_join_eq {o : Connective} {l r : Measured} {n : ℕ} (hl : l.depth ≤ n)
    (hr : r.depth ≤ n) (h : n < (Measured.join o l r).depth) :
    (Measured.join o l r).expr.depth = n + 1 := by
  rw [← Measured.depth_eq]
  simp only [Measured.join] at h ⊢
  omega

/-- The operator that makes an operand too deep has its operands before it and behind it. -/
theorem Overgrown.joins {f : Frame} {outer : List Frame} {vs : List Token}
    (h : Overgrown limits f m error) (ho : OuterReads outer ts) (hf : f.Reads us)
    (hb : f.Bounded limits) (hm : Derives .atom vs m.expr) (hle : m.depth ≤ limits.depth)
    (back : List Token) : ∃ t e, Joins (ts ++ us ++ vs) back t e ∧ e.depth = limits.depth + 1 ∧
      error = tooDeep t := by
  cases h with
  | @not t hneg hd =>
    cases hf with
    | plain _ _ => cases hneg
    | @negated _ _ _ ds cs _ _ ht =>
      cases hneg
      have hjoins : Joins (ts ++ (ds ++ cs) ++ t :: vs) back t m.not.expr := .not ht hm
      have hdepth : m.not.depth = limits.depth + 1 := by
        simp only [Measured.not] at hd ⊢
        omega
      refine ⟨t, m.not.expr, ?_, m.not.depth_eq ▸ hdepth, rfl⟩
      simpa only [List.append_assoc, List.cons_append, List.nil_append] using hjoins
  | @and p hconj hnegated hd =>
    obtain ⟨ds, cs, ns, heq, hdisj, hc, hn⟩ := hf.negation hm
    rw [hconj] at hc
    cases hc with
    | @some ls _ a left ht =>
      have hdepth := depth_join_eq (hb.conjunction _ hconj) (hnegated hle) hd
      have hjoins : Joins _ back a (Measured.join .and _ (negated m f.negation)).expr :=
        .and (ho.starts_conjunction hdisj) left ht hn
      refine ⟨a, _, ?_, hdepth, rfl⟩
      rw [List.append_assoc, heq]
      simpa only [List.append_assoc, List.cons_append, List.nil_append] using hjoins

/-- The operator that makes a chain of ORs too deep. -/
theorem joins_of_joined_error {f : Frame} {outer : List Frame}
    (hr : State.Reads limits ⟨f, outer, .operand m⟩ ts)
    (hb : State.Bounded limits ⟨f, outer, .operand m⟩)
    (h : joined limits .or m f.disjunction = .error error)
    (hback : ∀ u ∈ us.head?, u.kind ≠ .connective .and) :
    ∃ t e, Joins ts us t e ∧ e.depth = limits.depth + 1 ∧ error = tooDeep t := by
  obtain ⟨p, hp, hd, rfl⟩ := joined_eq_error h
  cases hr with
  | operand ho hdisj hm hle =>
    cases hp
    cases hdisj with
    | @some ls _ o left ht =>
      have hdepth := depth_join_eq (hb.frame.disjunction _ rfl) hle hd
      have hjoins : Joins _ us o (Measured.join .or _ m).expr :=
        .or (ho.starts .disjunction) left ht hm hback
      refine ⟨o, _, ?_, hdepth, rfl⟩
      simpa only [List.append_assoc, List.cons_append, List.nil_append] using hjoins

theorem exists_of_run_error (h : run limits ts s = .error error) : ∃ front t back next,
    ts = front ++ t :: back ∧ run limits front s = .ok next ∧
      next.step limits t = .error error := by
  induction ts generalizing s with
  | nil => cases h
  | cons t ts ih =>
    cases hstep : s.step limits t with
    | error error' =>
      rw [run_cons_error hstep] at h
      cases h
      exact ⟨[], t, ts, s, rfl, rfl, hstep⟩
    | ok next =>
      rw [run_cons_ok hstep] at h
      obtain ⟨front, u, back, last, rfl, hrun, hlast⟩ := ih h
      exact ⟨t :: front, u, back, last, rfl, (run_cons_ok hstep).trans hrun, hlast⟩

end Criteria.Expr.Reader
