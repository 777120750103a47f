import Criteria.Proofs.Reading.Derivation

/-! What a list of tokens is the front of: whether a rule can begin with it, and which operators
have their operands complete where it ends. -/
namespace Criteria.Expr
open Reader

variable {limits : Limits} {s s' : State} {t : Token} {ts us front back : List Token} {e : Expr}
  {m : Measured}

/-- A rule can begin with the tokens. -/
def Begins (ts : List Token) : Prop := ∃ back e, Derives .disjunction (ts ++ back) e

theorem Begins.of_append (us : List Token) (h : Begins (ts ++ us)) : Begins ts := by
  obtain ⟨back, e, h⟩ := h
  rw [List.append_assoc] at h
  exact ⟨us ++ back, e, h⟩

theorem Derives.begins (h : Derives .disjunction ts e) : Begins ts :=
  ⟨[], e, by rwa [List.append_nil]⟩

/-- A chain of the level begins behind the tokens. -/
def Starts (level : Level) (before : List Token) : Prop :=
  ∀ t ∈ before.getLast?, t.kind = .opening ∨ level = .conjunction ∧ t.kind = .connective .or

/-- The operands of the operator `t` are complete where `front` ends, and with them it makes `e`. A
chain of ANDs ends before it is the operand of an OR, so that `back` must not go on with one. -/
inductive Joins : List Token → List Token → Token → Expr → Prop
  | not {before ts back t e} (ht : t.kind = .not) (h : Derives .atom ts e) :
      Joins (before ++ t :: ts) back t (not e)
  | and {before ts us back t l r} (hb : Starts .conjunction before)
      (left : Derives .conjunction ts l) (ht : t.kind = .connective .and)
      (right : Derives .negation us r) :
      Joins (before ++ (ts ++ t :: us)) back t (join .and l r)
  | or {before ts us back t l r} (hb : Starts .disjunction before)
      (left : Derives .disjunction ts l) (ht : t.kind = .connective .or)
      (right : Derives .conjunction us r) (hback : ∀ u ∈ back.head?, u.kind ≠ .connective .and) :
      Joins (before ++ (ts ++ t :: us)) back t (join .or l r)

namespace Reader

theorem Frame.Reads.disjunction {f : Frame} (hf : f.Reads ts) (he : Derives .atom us e) :
    ∃ e, Derives .disjunction (ts ++ us) e := by
  obtain ⟨vs, ws, heq, hd, hc⟩ := hf.operand (m := .of e) he
  rw [heq]
  exact ⟨_, hd.disjunction hc⟩

/-- What stands in the innermost parenthesis goes on to a rule once all of them are closed. -/
theorem OuterReads.begins {outer : List Frame} (ho : OuterReads outer ts)
    (he : Derives .disjunction us e) : Begins (ts ++ us) := by
  induction ho generalizing us e with
  | nil => exact he.begins
  | @cons f outer t ts vs ho hf ht ih =>
    have hclosing : (⟨.closing, ")", 0⟩ : Token).kind = .closing := rfl
    obtain ⟨e, he⟩ := hf.disjunction (.parenthesised ht he hclosing)
    refine Begins.of_append [⟨.closing, ")", 0⟩] ?_
    simpa only [List.append_assoc, List.cons_append, List.nil_append] using ih he

theorem State.Reads.begins (h : s.Reads limits ts) : Begins ts := by
  let name : Token := ⟨.identifier "a", "a", 0⟩
  let operator : Token := ⟨.comparison .equal, "=", 0⟩
  let literal : Token := ⟨.literal (.boolean true), "true", 0⟩
  have hname : name.kind = .identifier "a" := rfl
  have hoperator : operator.kind = .comparison .equal := rfl
  have hliteral : literal.kind = .literal (.boolean true) := rfl
  cases h with
  | start ho hf =>
    obtain ⟨e, he⟩ := hf.disjunction (.comparison hname hoperator hliteral)
    refine Begins.of_append [name, operator, literal] ?_
    rw [List.append_assoc]
    exact ho.begins he
  | name ho hf ht =>
    obtain ⟨e, he⟩ := hf.disjunction (.comparison ht hoperator hliteral)
    refine Begins.of_append [operator, literal] ?_
    simpa only [List.append_assoc, List.singleton_append] using ho.begins he
  | operator ho hf hn hop =>
    obtain ⟨e, he⟩ := hf.disjunction (.comparison hn hop hliteral)
    refine Begins.of_append [literal] ?_
    simpa only [List.append_assoc, List.cons_append, List.nil_append] using ho.begins he
  | operand ho hd he _ =>
    rw [List.append_assoc]
    exact ho.begins (hd.disjunction he)

theorem State.Reads.begins_opening {f : Frame} {outer : List Frame}
    (h : State.Reads limits ⟨f, outer, .start⟩ ts) (ht : t.kind = .opening) :
    Begins (ts ++ [t]) := by
  cases h with
  | start ho hf =>
    have hopened : State.Reads limits ⟨{}, f :: outer, .start⟩ _ :=
      .start (.cons ho hf ht) (.plain .none .none)
    simpa only [List.append_nil] using hopened.begins

theorem exists_run_of_append (h : run limits (ts ++ us) s = .ok s') :
    ∃ next, run limits ts s = .ok next ∧ run limits us next = .ok s' := by
  cases hrun : run limits ts s with
  | error error =>
    rw [run_append_error hrun] at h
    cases h
  | ok next =>
    rw [run_append_ok hrun] at h
    exact ⟨next, rfl, h⟩

theorem exists_step_of_cons (h : run limits (t :: ts) s = .ok s') :
    ∃ next, Takes limits s t next ∧ run limits ts next = .ok s' := by
  have hfirst : run limits ([t] ++ ts) s = .ok s' := h
  obtain ⟨next, hstep, hrun⟩ := exists_run_of_append hfirst
  rw [run_singleton] at hstep
  exact ⟨next, takes_of_step hstep, hrun⟩

/-- Where a chain begins the frame is ready for it. -/
theorem ready_of_starts {level : Level} (hlevel : level = .disjunction ∨ level = .conjunction)
    (hb : Starts level ts) (h : run limits ts {} = .ok s) :
    ∃ f outer, s = ⟨f, outer, .start⟩ ∧ Ready level f := by
  have hempty : Ready level {} := by
    rcases hlevel with rfl | rfl
    · rfl
    · exact ⟨rfl, rfl⟩
  rcases List.eq_nil_or_concat ts with rfl | ⟨ts, t, rfl⟩
  · cases h
    exact ⟨{}, [], rfl, hempty⟩
  · rw [List.concat_eq_append] at h hb
    obtain ⟨next, -, hlast⟩ := exists_run_of_append h
    rw [run_singleton] at hlast
    rcases hb t (by simp) with ht | ⟨rfl, ht⟩
    · cases takes_of_step hlast with
      | opening hn _ => exact ⟨{}, _, rfl, hempty⟩
      | _ => simp_all
    · cases takes_of_step hlast with
      | or _ _ => exact ⟨_, _, rfl, rfl, rfl⟩
      | _ => simp_all

theorem leaves_of_run {level : Level} {f : Frame} {outer : List Frame} (h : Derives level ts e)
    (hf : Ready level f) (hrun : run limits ts ⟨f, outer, .start⟩ = .ok s) :
    Leaves limits ⟨f, outer, .start⟩ e level (.ok s) := by
  have houtcome := outcome_of_derives limits h f outer hf
  rw [hrun] at houtcome
  cases houtcome with
  | done _ h => exact h
  | overrun _ h => cases h
  | tooDeep _ h => cases h

theorem depth_le_of_joined {connective : Connective} {right : Measured} {p : Pending}
    (h : joined limits connective right (some p) = .ok m) :
    (Measured.join connective p.left right).expr.depth ≤ limits.depth := by
  rw [← Measured.depth_eq]
  simp only [joined, checked] at h
  split at h
  · cases h
  · omega

theorem depth_le_of_complete_negated {f : Frame} (hf : f.negation = some t) {outer : List Frame}
    {stage : Stage} (h : State.complete limits ⟨f, outer, stage⟩ m = .ok s) :
    m.not.expr.depth ≤ limits.depth := by
  rw [complete_negated hf] at h
  rw [← Measured.depth_eq]
  split at h
  · cases h
  · omega

theorem depth_le_of_complete_joined {d : Option Pending} {p : Pending} {outer : List Frame}
    {stage : Stage} (h : State.complete limits ⟨⟨d, some p, none⟩, outer, stage⟩ m = .ok s) :
    (Measured.join .and p.left m).expr.depth ≤ limits.depth := by
  rw [complete_plain limits rfl] at h
  cases hj : joined limits .and m (some p) with
  | error error => simp [hj, Except.map] at h
  | ok m' => exact depth_le_of_joined hj

/-- The chain of ORs that ends with the state is not too deep, if `back` lets it end there. -/
def State.Settled (limits : Limits) (back : List Token) (s : State) : Prop :=
  ∀ right, s.stage = .operand right → (∀ u ∈ back.head?, u.kind ≠ .connective .and) →
    ∃ m, joined limits .or right s.frame.disjunction = .ok m

end Reader

/-- An operator whose operands have been read makes no tree that is too deep. -/
theorem Joins.depth_le (h : Joins front back t e) (hrun : run limits front {} = .ok s)
    (hs : s.Settled limits back) : e.depth ≤ limits.depth := by
  cases h with
  | not ht h =>
    obtain ⟨_, -, hrun⟩ := exists_run_of_append hrun
    obtain ⟨_, htakes, hrun⟩ := exists_step_of_cons hrun
    cases htakes with
    | not hf _ => exact depth_le_of_complete_negated rfl (leaves_of_run h trivial hrun).symm
    | _ => simp_all
  | and hb left ht right =>
    obtain ⟨_, hbefore, hrun⟩ := exists_run_of_append hrun
    obtain ⟨f, outer, rfl, hf⟩ := ready_of_starts (.inr rfl) hb hbefore
    obtain ⟨_, hleft, hrun⟩ := exists_run_of_append hrun
    cases leaves_of_run left hf hleft
    obtain ⟨_, htakes, hright⟩ := exists_step_of_cons hrun
    cases htakes with
    | and _ => exact depth_le_of_complete_joined (leaves_of_run right (by rfl) hright).symm
    | _ => simp_all
  | or hb left ht right hback =>
    obtain ⟨_, hbefore, hrun⟩ := exists_run_of_append hrun
    obtain ⟨f, outer, rfl, hf⟩ := ready_of_starts (.inl rfl) hb hbefore
    obtain ⟨_, hleft, hrun⟩ := exists_run_of_append hrun
    obtain ⟨pending, operand, rfl, hchain⟩ := leaves_of_run left hf hleft
    cases hchain
    obtain ⟨_, htakes, hright⟩ := exists_step_of_cons hrun
    cases htakes with
    | or _ hj =>
      obtain ⟨rfl, -⟩ := joined_eq_ok hj
      cases leaves_of_run right ⟨rfl, rfl⟩ hright
      obtain ⟨_, hj⟩ := hs _ rfl hback
      exact depth_le_of_joined hj
    | _ => simp_all

end Criteria.Expr
