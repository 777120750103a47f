import Criteria.Proofs.Reading.Frames

/-! A list that the grammar derives is read to its end unless a limit stands against it, so the
reader accepts exactly the grammar within the limits. -/
namespace Criteria.Expr.Reader

variable {limits : Limits} {s s' : State} {t : Token} {ts us : List Token} {e : Expr}

/-- How a derivation of each level finds the frame that it begins in. -/
def Ready : Level → Frame → Prop
  | .disjunction, f => f = {}
  | .conjunction, f => f.negation = none ∧ f.conjunction = none
  | .negation, f => f.negation = none
  | .atom, _ => True

/-- What a derivation of each level makes of the state that it begins in. -/
def Leaves (limits : Limits) (s : State) (e : Expr) : Level → Except ParseError State → Prop
  | .disjunction, result => ∃ pending right, (chained .or right pending).expr = e ∧
      result = .ok { s with frame := { disjunction := pending }, stage := .operand right }
  | .conjunction, result =>
      result =
        .ok { s with frame := { disjunction := s.frame.disjunction }, stage := .operand (.of e) }
  | .negation, result | .atom, result => result = s.complete limits (.of e)

/-- The results of reading a derivation of `e` where `level` parentheses are open: no limit stands
against it, or a parenthesis is too many, or an operator makes an expression that is too deep. -/
inductive Outcome {α : Type} (limits : Limits) (level : ℕ) (ts : List Token) (e : Expr)
    (target : Except ParseError α → Prop) (result : Except ParseError α) : Prop
  | done (hn : Token.overrun? limits.nesting level ts = none) (h : target result)
  | overrun {t : Token} (hn : Token.overrun? limits.nesting level ts = some t)
      (h : result = unexpected .shallowerNesting t)
  | tooDeep {t : Token} (hd : limits.depth < e.depth) (h : result = unexpected .shallowerTree t)

namespace Outcome

variable {level : ℕ} {e l : Expr} {target : Except ParseError State → Prop}

/-- Where no limit stood against a part, the whole goes on. -/
theorem andThen {α : Type} {target target' : Except ParseError α → Prop}
    {result : Except ParseError α} (hl : l.depth ≤ e.depth)
    (h : Outcome limits level ts l target result)
    (next : Token.overrun? limits.nesting level ts = none → target result →
      Outcome limits level ts e target' result) : Outcome limits level ts e target' result := by
  cases h with
  | done hn h => exact next hn h
  | overrun hn h => exact .overrun hn h
  | tooDeep hd h => exact .tooDeep (hd.trans_le hl) h

/-- A token that is no parenthesis and leads to another state. -/
theorem flat (ho : t.kind ≠ .opening) (hc : t.kind ≠ .closing) (ht : Takes limits s t s')
    (h : Outcome limits level ts e target (run limits ts s')) :
    Outcome limits level (t :: ts) e target (run limits (t :: ts) s) := by
  rw [run_cons_ok (step_of_takes ht)]
  cases h with
  | done hn h => exact .done (by rwa [Token.overrun?_flat ho hc]) h
  | overrun hn h => exact .overrun (by rwa [Token.overrun?_flat ho hc]) h
  | tooDeep hd h => exact .tooDeep hd h

/-- An opening parenthesis, after which one more is open. -/
theorem opening {f : Frame} {outer : List Frame} (ho : t.kind = .opening)
    (hn : outer.length < limits.nesting)
    (h : Outcome limits (outer.length + 1) ts e target (run limits ts ⟨{}, f :: outer, .start⟩)) :
    Outcome limits outer.length (t :: ts) e target (run limits (t :: ts) ⟨f, outer, .start⟩) := by
  have skip : Token.overrun? limits.nesting outer.length (t :: ts) =
      Token.overrun? limits.nesting (outer.length + 1) ts := by
    rw [Token.overrun?_opening ho, if_neg (Nat.not_le.mpr hn)]
  rw [run_cons_ok (step_of_takes (.opening hn ho))]
  cases h with
  | done hn h => exact .done (skip.trans hn) h
  | overrun hn h => exact .overrun (skip.trans hn) h
  | tooDeep hd h => exact .tooDeep hd h

/-- A derivation of a part of `e`, and what follows from each state that it can leave. -/
theorem append (reached : State → Prop) (hb : Token.Balanced ts) (hl : l.depth ≤ e.depth)
    (first : Outcome limits level ts l (fun result => ∃ s', reached s' ∧ result = .ok s')
      (run limits ts s))
    (next : ∀ s', reached s' → Outcome limits level us e target (run limits us s')) :
    Outcome limits level (ts ++ us) e target (run limits (ts ++ us) s) := by
  cases first with
  | done hn h =>
    obtain ⟨s', hs', h⟩ := h
    rw [run_append_ok h]
    cases next s' hs' with
    | done hu h => exact .done (by rw [hb.overrun?_append, hn, hu]; rfl) h
    | overrun hu h => exact .overrun (by rw [hb.overrun?_append, hn, hu]; rfl) h
    | tooDeep hd h => exact .tooDeep hd h
  | overrun hn h =>
    exact .overrun (by rw [hb.overrun?_append, hn]; rfl) (run_append_error h)
  | tooDeep hd h => exact .tooDeep (hd.trans_le hl) (run_append_error h)

/-- A disjunction, and what follows from each place where its last operand can end. -/
theorem append_disjunction {f : Frame} {outer : List Frame} (hb : Token.Balanced ts)
    (hl : l.depth ≤ e.depth)
    (first : Outcome limits level ts l (Leaves limits ⟨f, outer, .start⟩ l .disjunction)
      (run limits ts s))
    (next : ∀ pending right, (chained .or right pending).expr = l → Outcome limits level us e target
      (run limits us ⟨{ disjunction := pending }, outer, .operand right⟩)) :
    Outcome limits level (ts ++ us) e target (run limits (ts ++ us) s) := by
  apply append (fun s' => ∃ pending right, (chained .or right pending).expr = l ∧
    s' = ⟨{ disjunction := pending }, outer, .operand right⟩) hb hl
  · refine first.andThen le_rfl fun hn h => .done hn ?_
    obtain ⟨pending, right, hchain, h⟩ := h
    exact ⟨_, ⟨pending, right, hchain, rfl⟩, h⟩
  · rintro _ ⟨pending, right, hchain, rfl⟩
    exact next pending right hchain

end Outcome

/-- A derivation is read from any state that it may begin in, unless a limit stands against it. -/
theorem outcome_of_derives (limits : Limits) {level : Level} (h : Derives level ts e) (f : Frame)
    (outer : List Frame) (hf : Ready level f) :
    Outcome limits outer.length ts e (Leaves limits ⟨f, outer, .start⟩ e level)
      (run limits ts ⟨f, outer, .start⟩) := by
  induction h generalizing f outer with
  | single h ih =>
    obtain rfl := hf
    exact (ih {} outer ⟨rfl, rfl⟩).andThen le_rfl fun hn h => .done hn ⟨none, _, rfl, h⟩
  | @or ts us l r t left ht right ihl ihr =>
    obtain rfl := hf
    have hl : l.depth ≤ (join .or l r).depth := by rw [depth_join]; omega
    have hr : r.depth ≤ (join .or l r).depth := by rw [depth_join]; omega
    apply (ihl {} outer rfl).append_disjunction left.balanced hl
    rintro pending operand rfl
    rcases joined_cases limits .or operand pending with hj | ⟨hd, u, hj⟩
    · refine .flat (by simp [ht]) (by simp [ht]) (.or ht hj) ?_
      exact (ihr { disjunction := some ⟨_, t⟩ } outer ⟨rfl, rfl⟩).andThen hr
        fun hn h => .done hn ⟨_, _, rfl, h⟩
    · refine .tooDeep (t := u) (hd.trans_le hl) (run_cons_error ?_)
      rw [step_or ht, hj]
      rfl
  | factor h ih =>
    obtain ⟨hneg, hconj⟩ := hf
    refine (ih f outer hneg).andThen le_rfl fun hn h => .done hn (h.trans ?_)
    rw [complete_plain limits hneg, hconj]
    rfl
  | @and ts us l r t left ht right ihl ihr =>
    have hl : l.depth ≤ (join .and l r).depth := by rw [depth_join]; omega
    have hr : r.depth ≤ (join .and l r).depth := by rw [depth_join]; omega
    refine .append (· = ⟨{ disjunction := f.disjunction }, outer, .operand (.of l)⟩)
      left.balanced hl ?_ ?_
    · exact (ihl f outer hf).andThen le_rfl fun hn h => .done hn ⟨_, rfl, h⟩
    · rintro _ rfl
      refine .flat (by simp [ht]) (by simp [ht]) (.and ht) ?_
      refine (ihr ⟨f.disjunction, some ⟨.of l, t⟩, none⟩ outer rfl).andThen hr fun hn h => ?_
      rw [Leaves, complete_plain limits rfl] at h
      rcases joined_cases limits .and (.of r) (some ⟨.of l, t⟩) with hj | ⟨hd, u, hj⟩
      · exact .done hn (by rw [h, hj, Leaves, Measured.of_join]; rfl)
      · exact .tooDeep hd (h.trans (by rw [hj]; rfl))
  | plain h ih => exact ih f outer trivial
  | @not ts e t ht h ih =>
    obtain ⟨d, c, negation⟩ := f
    obtain rfl : negation = none := hf
    have hl : e.depth ≤ (not e).depth := by rw [depth_not]; omega
    refine (Outcome.flat (by simp [ht]) (by simp [ht]) (.not (f := ⟨d, c, none⟩) rfl ht)
      (ih ⟨d, c, some t⟩ outer trivial)).andThen hl fun hn h => ?_
    rw [Leaves, complete_negated rfl, ← Measured.of_not] at h
    split at h
    · rename_i hd
      exact .tooDeep hd h
    · exact .done hn h
  | comparison hn ho hv =>
    refine .done (by simp [Token.overrun?_flat, hn, ho, hv]) ?_
    rw [run_cons_ok (step_of_takes (.name hn)), run_cons_ok (step_of_takes (.operator ho)),
      run_singleton]
    simp only [State.step, hv]
    rw [Leaves, Measured.of_leaf]
    rfl
  | @parenthesised ts e o c ho h hc ih =>
    by_cases hn : limits.nesting ≤ outer.length
    · refine .overrun (by rw [Token.overrun?_opening ho, if_pos hn]) (run_cons_error ?_)
      simp only [State.step, ho, if_pos hn]
      rfl
    · apply Outcome.opening ho (Nat.not_le.mp hn)
      apply (ih {} (f :: outer) rfl).append_disjunction h.balanced le_rfl
      rintro pending operand rfl
      rw [run_singleton, step_closing hc]
      rcases joined_cases limits .or operand pending with hj | ⟨hd, u, hj⟩
      · refine .done (by rw [Token.overrun?_closing hc, Token.overrun?_nil]) ?_
        rw [hj, Leaves, Measured.of_expr]
        rfl
      · exact .tooDeep hd (by rw [hj]; rfl)

theorem read_of_run {f : Frame} {right : Measured} (hts : ts ≠ [])
    (h : run limits ts {} = .ok ⟨f, [], .operand right⟩) :
    read limits ts = (joined limits .or right f.disjunction).map Measured.expr := by
  simp only [run] at h
  simp only [read, List.getLast?_eq_some_getLast hts, h, bind, Except.bind, State.finish]
  cases joined limits .or right f.disjunction <;> rfl

theorem read_of_run_error {error : ParseError} (hts : ts ≠ [])
    (h : run limits ts {} = .error error) : read limits ts = .error error := by
  simp only [run] at h
  simp only [read, List.getLast?_eq_some_getLast hts, h, bind, Except.bind]

/-- What the grammar derives is read, unless a limit stands against it. -/
theorem outcome_of_read (limits : Limits) (h : Derives .disjunction ts e) :
    Outcome limits 0 ts e (· = .ok e) (read limits ts) := by
  cases outcome_of_derives limits h {} [] rfl with
  | done hn hr =>
    obtain ⟨pending, right, rfl, hr⟩ := hr
    rw [read_of_run h.ne_nil hr]
    rcases joined_cases limits .or right pending with hj | ⟨hd, t, hj⟩
    · exact .done hn (by rw [hj]; rfl)
    · exact .tooDeep hd (by rw [hj]; rfl)
  | overrun hn hr => exact .overrun hn (read_of_run_error h.ne_nil hr)
  | tooDeep hd hr => exact .tooDeep hd (read_of_run_error h.ne_nil hr)

theorem read_eq_ok_iff (limits : Limits) (hl : 0 < limits.depth) : read limits ts = .ok e ↔
    Derives .disjunction ts e ∧ Token.nesting ts ≤ limits.nesting ∧ e.depth ≤ limits.depth := by
  refine ⟨derives_of_read hl, ?_⟩
  rintro ⟨h, hn, hd⟩
  cases outcome_of_read limits h with
  | done _ hr => exact hr
  | overrun ho _ => simp [h.balanced.overrun?_eq_none_iff.mpr hn] at ho
  | tooDeep hlt _ => omega

/-- No list of tokens has two derivations: limits that suit both of them leave one reading. -/
theorem derives_unique {f : Expr} (he : Derives .disjunction ts e)
    (hf : Derives .disjunction ts f) : e = f := by
  have wide : 0 < max e.depth f.depth := e.depth_pos.trans_le (le_max_left ..)
  have hre := (read_eq_ok_iff ⟨Token.nesting ts, max e.depth f.depth⟩ wide).mpr
    ⟨he, le_rfl, le_max_left ..⟩
  have hrf := (read_eq_ok_iff ⟨Token.nesting ts, max e.depth f.depth⟩ wide).mpr
    ⟨hf, le_rfl, le_max_right ..⟩
  exact Except.ok.inj (hre.symm.trans hrf)

end Criteria.Expr.Reader

namespace Criteria.Expr
open Reader

/-- A derived list that is refused goes beyond a limit, and the error names that limit. -/
theorem limit_of_ofTokens_error {tokens : List Token} {e : Expr} {error : ParseError}
    (h : Derives .disjunction tokens e) (herror : ofTokens tokens = .error error) :
    error.expected = .shallowerNesting ∧ maxNesting < Token.nesting tokens ∨
      error.expected = .shallowerTree ∧ maxDepth < e.depth := by
  cases outcome_of_read ⟨maxNesting, maxDepth⟩ h with
  | done _ hr => cases hr.symm.trans herror
  | overrun hn hr =>
    cases hr.symm.trans herror
    refine .inl ⟨rfl, Nat.lt_of_not_le fun hle => ?_⟩
    simp [h.balanced.overrun?_eq_none_iff.mpr hle] at hn
  | tooDeep hd hr =>
    cases hr.symm.trans herror
    exact .inr ⟨rfl, hd⟩

/-- A list of tokens is read as an expression exactly if the grammar derives it, it nests its
parentheses within the limit and the expression is not too deep. The grammar gives a list one
expression at most, and a list that it derives is refused for a limit only. -/
theorem ofTokens_eq_ok_iff_derives (tokens : List Token) (e : Expr) :
    (ofTokens tokens = .ok e ↔
      Derives .disjunction tokens e ∧ Token.nesting tokens ≤ maxNesting ∧ e.depth ≤ maxDepth) ∧
    (Derives .disjunction tokens e →
      (∀ f, Derives .disjunction tokens f → f = e) ∧
      ∀ error, ofTokens tokens = .error error →
        error.expected = .shallowerNesting ∧ maxNesting < Token.nesting tokens ∨
          error.expected = .shallowerTree ∧ maxDepth < e.depth) := by
  refine ⟨read_eq_ok_iff _ (by decide), fun h => ⟨fun f hf => derives_unique hf h, ?_⟩⟩
  intro error herror
  exact limit_of_ofTokens_error h herror

end Criteria.Expr
