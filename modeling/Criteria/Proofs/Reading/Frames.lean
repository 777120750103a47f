import Criteria.Proofs.Reading.Step

/-! The tokens that lead to a state split along its frames, so whatever is read is derived by the
grammar. -/
namespace Criteria.Expr.Reader

variable {limits : Limits} {s s' : State} {t : Token} {ts us : List Token} {m : Measured}

/-- The tokens of an operator that waits for its right operand. -/
inductive Waits (level : Level) (connective : Connective) : Option Pending → List Token → Prop
  | none : Waits level connective none []
  | some {ts left t} (h : Derives level ts left.expr) (ht : t.kind = .connective connective) :
      Waits level connective (some ⟨left, t⟩) (ts ++ [t])

/-- The tokens of one frame. -/
inductive Frame.Reads : Frame → List Token → Prop
  | plain {d c ts us} (hd : Waits .disjunction .or d ts) (hc : Waits .conjunction .and c us) :
      Frame.Reads ⟨d, c, none⟩ (ts ++ us)
  | negated {d c t ts us} (hd : Waits .disjunction .or d ts) (hc : Waits .conjunction .and c us)
      (ht : t.kind = .not) : Frame.Reads ⟨d, c, some t⟩ (ts ++ us ++ [t])

/-- The tokens of the frames around the innermost one, each up to its parenthesis. -/
inductive OuterReads : List Frame → List Token → Prop
  | nil : OuterReads [] []
  | cons {f outer t ts us} (ho : OuterReads outer ts) (hf : Frame.Reads f us)
      (ht : t.kind = .opening) : OuterReads (f :: outer) (ts ++ us ++ [t])

/-- The tokens that lead to a state. An operand is never deeper than allowed. -/
inductive State.Reads (limits : Limits) : State → List Token → Prop
  | start {f outer ts us} (ho : OuterReads outer ts) (hf : Frame.Reads f us) :
      State.Reads limits ⟨f, outer, .start⟩ (ts ++ us)
  | name {f outer ts us t name} (ho : OuterReads outer ts) (hf : Frame.Reads f us)
      (ht : t.kind = .identifier name) :
      State.Reads limits ⟨f, outer, .name name⟩ (ts ++ us ++ [t])
  | operator {f outer ts us n o name operator} (ho : OuterReads outer ts) (hf : Frame.Reads f us)
      (hn : n.kind = .identifier name) (hop : o.kind = .comparison operator) :
      State.Reads limits ⟨f, outer, .operator name operator⟩ (ts ++ us ++ [n, o])
  | operand {d outer ts us vs m} (ho : OuterReads outer ts) (hd : Waits .disjunction .or d us)
      (hm : Derives .conjunction vs m.expr) (hle : m.depth ≤ limits.depth) :
      State.Reads limits ⟨{ disjunction := d }, outer, .operand m⟩ (ts ++ us ++ vs)

/-- A disjunction takes one more conjunction. -/
theorem Waits.disjunction {d : Option Pending} (hd : Waits .disjunction .or d ts)
    (hm : Derives .conjunction us m.expr) :
    Derives .disjunction (ts ++ us) (chained .or m d).expr := by
  cases hd with
  | none => exact .single hm
  | some h ht =>
    rw [List.append_assoc]
    exact .or h ht hm

theorem Waits.conjunction {c : Option Pending} (hc : Waits .conjunction .and c ts)
    (hm : Derives .negation us m.expr) :
    Derives .conjunction (ts ++ us) (chained .and m c).expr := by
  cases hc with
  | none => exact .factor hm
  | some h ht =>
    rw [List.append_assoc]
    exact .and h ht hm

/-- A frame and an atom make up what waits for an OR and a conjunction. -/
theorem Frame.Reads.operand {f : Frame} (hf : f.Reads ts) (hm : Derives .atom us m.expr) :
    ∃ vs ws, ts ++ us = vs ++ ws ∧ Waits .disjunction .or f.disjunction vs ∧
      Derives .conjunction ws (f.operand m).expr := by
  cases hf with
  | plain hd hc => exact ⟨_, _, List.append_assoc .., hd, hc.conjunction (.plain hm)⟩
  | negated hd hc ht =>
    refine ⟨_, _, ?_, hd, hc.conjunction (m := m.not) (.not ht hm)⟩
    simp only [List.append_assoc, List.cons_append, List.nil_append]

theorem State.Reads.after {f : Frame} {outer : List Frame} {stage : Stage} {vs : List Token}
    (ho : OuterReads outer ts) (hf : f.Reads us) (hm : Derives .atom vs m.expr)
    (hle : m.depth ≤ limits.depth)
    (h : State.complete limits ⟨f, outer, stage⟩ m = .ok s') :
    s'.Reads limits (ts ++ us ++ vs) := by
  obtain ⟨rfl, hd⟩ := complete_eq_ok h
  obtain ⟨ws, xs, heq, hw, hx⟩ := hf.operand hm
  rw [List.append_assoc, heq, ← List.append_assoc]
  exact .operand ho hw hx (hd hle)

theorem State.Reads.step (hl : 0 < limits.depth) (hs : s.Reads limits ts)
    (h : Takes limits s t s') : s'.Reads limits (ts ++ [t]) := by
  cases h with
  | not hf ht =>
    cases hs with
    | start ho hr =>
      rw [List.append_assoc]
      cases hr with
      | plain hd hc => exact .start ho (.negated hd hc ht)
      | negated hd hc => cases hf
  | opening hn ht =>
    cases hs with
    | start ho hf =>
      have h : State.Reads limits _ _ := .start (.cons ho hf ht) (.plain .none .none)
      simpa only [List.append_nil] using h
  | name ht =>
    cases hs with
    | start ho hf => exact .name ho hf ht
  | operator ht =>
    cases hs with
    | name ho hf hn =>
      rw [List.append_assoc]
      exact .operator ho hf hn ht
  | literal ht hc =>
    cases hs with
    | operator ho hf hn hop =>
      rw [List.append_assoc]
      exact .after (m := .leaf _) ho hf (.comparison hn hop ht) hl hc
  | and ht =>
    cases hs with
    | operand ho hd he hle =>
      rw [List.append_assoc, List.append_assoc]
      exact .start ho (.plain hd (.some he ht))
  | or ht hj =>
    cases hs with
    | operand ho hd he hle =>
      obtain ⟨rfl, -⟩ := joined_eq_ok hj
      have h : State.Reads limits _ _ :=
        .start ho (.plain (.some (hd.disjunction he) ht) .none)
      simpa only [List.append_nil, List.append_assoc] using h
  | closing ht hj hc =>
    cases hs with
    | operand ho hd he hle =>
      obtain ⟨rfl, hj⟩ := joined_eq_ok hj
      cases ho with
      | cons ho hf hop =>
        have h := State.Reads.after ho hf (.parenthesised hop (hd.disjunction he) ht) (hj hle) hc
        simpa only [List.append_assoc, List.cons_append, List.nil_append] using h

theorem Waits.total {level : Level} {connective : Connective} {p : Option Pending}
    (h : Waits level connective p ts) : Token.opened ts = Token.closed ts := by
  cases h with
  | none => rfl
  | some h ht => simp [h.balanced.total, ht]

theorem Frame.Reads.total {f : Frame} (h : f.Reads ts) : Token.opened ts = Token.closed ts := by
  cases h with
  | plain hd hc => simp [hd.total, hc.total]
  | negated hd hc ht => simp [hd.total, hc.total, ht]

theorem OuterReads.total {outer : List Frame} (h : OuterReads outer ts) :
    Token.opened ts = Token.closed ts + outer.length := by
  induction h with
  | nil => rfl
  | cons ho hf ht ih =>
    have h := hf.total
    simp only [Token.opened_append, Token.closed_append, Token.opened_cons, Token.closed_cons, ht,
      Token.opened_nil, Token.closed_nil, reduceCtorEq, if_true, if_false, List.length_cons]
    omega

/-- As many parentheses are open as there are frames around the innermost one. -/
theorem State.Reads.total (h : s.Reads limits ts) :
    Token.opened ts = Token.closed ts + s.outer.length := by
  cases h with
  | start ho hf =>
    have hf := hf.total
    simp only [Token.opened_append, Token.closed_append, ho.total]
    omega
  | name ho hf ht =>
    have hf := hf.total
    simp [ho.total, ht]
    omega
  | operator ho hf hn hop =>
    have hf := hf.total
    simp [ho.total, hn, hop]
    omega
  | operand ho hd he =>
    have hd := hd.total
    have he := he.balanced.total
    simp only [Token.opened_append, Token.closed_append, ho.total]
    omega

/-- What holds of a state and the tokens that were read up to it. -/
structure Sound (limits : Limits) (s : State) (tokens : List Token) : Prop where
  reads : s.Reads limits tokens
  nesting : Token.nesting tokens ≤ limits.nesting

theorem Sound.step (hl : 0 < limits.depth) (hs : Sound limits s ts)
    (h : s.step limits t = .ok s') : Sound limits s' (ts ++ [t]) := by
  have ht := takes_of_step h
  refine ⟨hs.reads.step hl ht, (Token.nesting_concat_le_iff ..).mpr ⟨hs.nesting, ?_⟩⟩
  have hd := (Token.nesting_le_iff ts _).mp hs.nesting ts List.prefix_rfl
  simp only [Token.opened_append, Token.closed_append, Token.opened_cons, Token.opened_nil]
  split
  · rename_i hk
    have hn := hs.reads.total
    cases ht with
    | opening hlt =>
      dsimp only at hn
      omega
    | _ => simp_all
  · omega

theorem Sound.run (hl : 0 < limits.depth) (hs : Sound limits s ts)
    (h : run limits us s = .ok s') : Sound limits s' (ts ++ us) := by
  induction us generalizing s ts with
  | nil =>
    cases h
    rwa [List.append_nil]
  | cons t us ih =>
    cases hstep : s.step limits t with
    | error error => simp [run_cons_error hstep] at h
    | ok next =>
      rw [run_cons_ok hstep] at h
      simpa using ih (hs.step hl hstep) h

theorem initial_sound : Sound limits {} [] :=
  ⟨.start .nil (.plain .none .none), by simp [Token.nesting_le_iff]⟩

/-- The state at the end stands outside all parentheses and holds the whole expression. -/
theorem finish_eq_ok {position : ℕ} (h : s.finish limits position = .ok m) :
    s.outer = [] ∧ ∃ right, s.stage = .operand right ∧
      joined limits .or right s.frame.disjunction = .ok m := by
  obtain ⟨f, outer, stage⟩ := s
  cases stage with
  | start | name name | operator name operator => cases h
  | operand right =>
    simp only [State.finish] at h
    cases hj : joined limits .or right f.disjunction with
    | error error => simp [hj, bind, Except.bind] at h
    | ok e' =>
      simp only [hj, bind, Except.bind] at h
      split at h
      · rename_i ho
        cases h
        exact ⟨List.isEmpty_iff.mp ho, right, rfl, hj⟩
      · cases h

/-- Whatever the reader makes of a list is derived by the grammar, within the limits. -/
theorem derives_of_read {e : Expr} (hl : 0 < limits.depth) (h : read limits ts = .ok e) :
    Derives .disjunction ts e ∧ Token.nesting ts ≤ limits.nesting ∧ e.depth ≤ limits.depth := by
  simp only [read] at h
  split at h
  · cases h
  · rename_i last hlast
    cases hr : run limits ts {} with
    | error error => simp [run] at hr; simp [hr, bind, Except.bind] at h
    | ok s =>
      have hs := initial_sound.run hl hr
      simp only [run] at hr
      simp only [hr, bind, Except.bind] at h
      cases hfinish : s.finish limits last.stop with
      | error error => simp [hfinish] at h
      | ok m =>
        obtain rfl : m.expr = e := by simpa [hfinish, pure, Except.pure] using h
        obtain ⟨ho, right, hstage, hj⟩ := finish_eq_ok hfinish
        obtain ⟨hreads, hnesting⟩ := hs
        cases hreads with
        | start | name | operator => cases hstage
        | operand houter hd hm hle =>
          cases hstage
          cases ho
          cases houter
          obtain ⟨rfl, hj⟩ := joined_eq_ok hj
          exact ⟨hd.disjunction hm, hnesting, Measured.depth_eq _ ▸ hj hle⟩

end Criteria.Expr.Reader
