import Criteria.Proofs.Reading.Refusals

/-! The place where the reader of token lists fails. It is the first one that no rule could pass:
the first token that cannot stand there, the parenthesis that is one too many, or the end of the
operands that are too deep for their operator. -/
namespace Criteria

/-- The error is about the token. -/
def ParseError.PointsAt (error : ParseError) (t : Token) : Prop :=
  error.position = t.position ∧ error.foundText = t.describe

namespace Expr
open Reader

variable {ts us front back : List Token} {error : ParseError}

/-- Nothing is wrong with the tokens in front: a rule can begin with them, they open no parenthesis
too many, and no operator that has its operands before their end makes a tree that is too deep. -/
structure Passes (front back : List Token) : Prop where
  begins : Begins front
  nesting_le : Token.nesting front ≤ maxNesting
  shallow : ∀ before after t e, before ++ after = front → after ≠ [] →
    Joins before (after ++ back) t e → e.depth ≤ maxDepth

/-- The tokens before the place where reading fails, and those behind it. Nothing is wrong with the
first ones, and the error is what is wrong with the next one. -/
structure FailsBetween (front back : List Token) (error : ParseError) : Prop
    extends Passes front back where
  /-- No operator that has its operands there makes a tree that is too deep, but for the one of the
  error. -/
  shallow_end : error.expected ≠ .shallowerTree → ∀ t e, Joins front back t e → e.depth ≤ maxDepth
  /-- A parenthesis could stand there, but it is one too many. -/
  nested : error.expected = .shallowerNesting → ∃ t rest, back = t :: rest ∧ t.kind = .opening ∧
    Begins (front ++ [t]) ∧ Token.opened front = Token.closed front + maxNesting ∧
      error.PointsAt t
  /-- An operator has its operands there, and they are one level too deep for it. -/
  deep : error.expected = .shallowerTree → ∃ t e, Joins front back t e ∧
    e.depth = maxDepth + 1 ∧ error.PointsAt t
  /-- No rule has the next token there, or no rule ends there. -/
  impossible : error.expected ≠ .shallowerNesting → error.expected ≠ .shallowerTree →
    (∃ t rest, back = t :: rest ∧ ¬ Begins (front ++ [t]) ∧ error.PointsAt t) ∨
      (back = [] ∧ (∀ e, ¬ Derives .disjunction front e) ∧ error.foundText = "end of input" ∧
        error.position = (front.getLast?.map Token.stop).getD 0)

variable {s : State} {t : Token} {e : Expr} {m : Measured}

/-- An operator that has its operands in a front of what has been read. -/
theorem Joins.depth_le_of_append {limits : Limits} {before after : List Token}
    (h : Joins before (after ++ back) t e) (hrun : run limits (before ++ after) {} = .ok s)
    (hs : after = [] → s.Settled limits back) : e.depth ≤ limits.depth := by
  obtain ⟨next, hbefore, hafter⟩ := exists_run_of_append hrun
  cases after with
  | nil =>
    cases hafter
    exact h.depth_le hbefore (hs rfl)
  | cons u after =>
    obtain ⟨_, htakes, -⟩ := exists_step_of_cons hafter
    refine h.depth_le hbefore (settled_of_step fun error herror => ?_)
    cases herror.symm.trans (step_of_takes htakes)

theorem passes_of_run (hrun : run ⟨maxNesting, maxDepth⟩ front {} = .ok s) (back : List Token) :
    Passes front back := by
  have hsound := initial_sound.run (by decide) hrun
  refine ⟨hsound.reads.begins, hsound.nesting, ?_⟩
  rintro before after t e rfl hne hjoins
  exact hjoins.depth_le_of_append hrun fun hnil => absurd hnil hne

/-- One more token with which a rule can go on. -/
theorem Passes.concat (hrun : run ⟨maxNesting, maxDepth⟩ front {} = .ok s)
    (hs : s.Settled ⟨maxNesting, maxDepth⟩ (t :: back)) (hopen : t.kind ≠ .opening)
    (hbegins : Begins (front ++ [t])) : Passes (front ++ [t]) back := by
  have hn := (passes_of_run hrun back).nesting_le
  refine ⟨hbegins, ?_, fun before after u e heq hne hjoins => ?_⟩
  · have htotal := (Token.nesting_le_iff front _).mp hn front List.prefix_rfl
    refine (Token.nesting_concat_le_iff ..).mpr ⟨hn, ?_⟩
    simp only [Token.opened_append, Token.closed_append, Token.opened_cons, hopen, if_false,
      Token.opened_nil]
    omega
  · obtain ⟨after, v, rfl⟩ := (List.eq_nil_or_concat after).resolve_left hne
    rw [List.concat_eq_append, ← List.append_assoc] at heq
    obtain ⟨rfl, hv⟩ := List.append_inj' heq rfl
    cases hv
    rw [List.concat_eq_append, List.append_assoc] at hjoins
    exact hjoins.depth_le_of_append hrun fun _ => hs

/-- Tokens that are refused with an error that names no limit are the front of no rule. -/
theorem not_begins_of_run (hne : front ≠ [])
    (h : run ⟨maxNesting, maxDepth⟩ front {} = .error error)
    (hn : error.expected ≠ .shallowerNesting) (hd : error.expected ≠ .shallowerTree) :
    ¬ Begins front := by
  rintro ⟨back, e, he⟩
  have hrun : run ⟨maxNesting, maxDepth⟩ (front ++ back) {} = .error error := run_append_error h
  have hread := read_of_run_error (by simp [hne]) hrun
  rcases limit_of_ofTokens_error he hread with ⟨hlimit, -⟩ | ⟨hlimit, -⟩
  · exact hn hlimit
  · exact hd hlimit

namespace FailsBetween

theorem of_joins (hp : Passes front back)
    (h : ∃ t e, Joins front back t e ∧ e.depth = maxDepth + 1 ∧ error = tooDeep t) :
    FailsBetween front back error := by
  obtain ⟨t, e, hjoins, hdepth, rfl⟩ := h
  refine ⟨hp, fun htree => absurd rfl htree, fun h => ?_, fun _ => ?_,
    fun _ htree => absurd rfl htree⟩
  · cases h
  · exact ⟨t, e, hjoins, hdepth, rfl, rfl⟩

/-- An operand that is complete with the token `t` is too deep. -/
theorem of_overgrown {f : Frame} {outer : List Frame} {vs : List Token}
    (hrun : run ⟨maxNesting, maxDepth⟩ front {} = .ok s)
    (hs : s.Settled ⟨maxNesting, maxDepth⟩ (t :: back)) (hopen : t.kind ≠ .opening)
    (heq : front ++ [t] = ts ++ us ++ vs) (ho : OuterReads outer ts) (hf : f.Reads us)
    (hm : Derives .atom vs m.expr) (hb : f.Bounded ⟨maxNesting, maxDepth⟩)
    (hle : m.depth ≤ maxDepth) (h : Overgrown ⟨maxNesting, maxDepth⟩ f m error) :
    FailsBetween (front ++ [t]) back error := by
  have hbegins : Begins (front ++ [t]) := by
    obtain ⟨e, he⟩ := hf.disjunction hm
    rw [heq, List.append_assoc]
    exact ho.begins he
  have hjoins := h.joins ho hf hb hm hle back
  rw [← heq] at hjoins
  exact of_joins (.concat hrun hs hopen hbegins) hjoins

/-- An OR makes a tree that is too deep with the operand that `back` ends. -/
theorem of_chained {f : Frame} {outer : List Frame}
    (hrun : run ⟨maxNesting, maxDepth⟩ front {} = .ok ⟨f, outer, .operand m⟩)
    (hback : ∀ u ∈ back.head?, u.kind ≠ .connective .and)
    (h : joined ⟨maxNesting, maxDepth⟩ .or m f.disjunction = .error error) :
    FailsBetween front back error := by
  have hsound := initial_sound.run (by decide) hrun
  have hbounded := initial_bounded.run (by decide) hrun
  exact of_joins (passes_of_run hrun back) (joins_of_joined_error hsound.reads hbounded h hback)

theorem of_misplaced {expected : Expected} (hrun : run ⟨maxNesting, maxDepth⟩ front {} = .ok s)
    (hn : expected ≠ .shallowerNesting) (hd : expected ≠ .shallowerTree)
    (h : s.step ⟨maxNesting, maxDepth⟩ t = .error ⟨t.position, expected, some t⟩) :
    FailsBetween front (t :: back) ⟨t.position, expected, some t⟩ := by
  have hs : s.Settled ⟨maxNesting, maxDepth⟩ (t :: back) := settled_of_step_error h hd
  refine ⟨passes_of_run hrun _, fun _ u e hjoins => hjoins.depth_le hrun hs,
    fun hnested => absurd hnested hn, fun hdeep => absurd hdeep hd, fun _ _ => .inl ?_⟩
  have hstep : run ⟨maxNesting, maxDepth⟩ (front ++ [t]) {} = run _ [t] s := run_append_ok hrun
  rw [run_singleton, h] at hstep
  exact ⟨t, back, rfl, not_begins_of_run (by simp) hstep hn hd, rfl, rfl⟩

theorem of_nested {f : Frame} {outer : List Frame}
    (hrun : run ⟨maxNesting, maxDepth⟩ front {} = .ok ⟨f, outer, .start⟩) (ht : t.kind = .opening)
    (hn : maxNesting ≤ outer.length) :
    FailsBetween front (t :: back) ⟨t.position, .shallowerNesting, some t⟩ := by
  have hsound := initial_sound.run (by decide) hrun
  have hs : State.Settled ⟨maxNesting, maxDepth⟩ (t :: back) ⟨f, outer, .start⟩ := by
    rintro _ ⟨⟩
  refine ⟨passes_of_run hrun _, fun _ u e hjoins => hjoins.depth_le hrun hs,
    fun _ => ⟨t, back, rfl, ht, hsound.reads.begins_opening ht, ?_, rfl, rfl⟩,
    fun hdeep => by simp at hdeep, fun hnested => by simp at hnested⟩
  have htotal := hsound.reads.total
  have hle := (Token.nesting_le_iff front _).mp hsound.nesting front List.prefix_rfl
  exact Nat.le_antisymm hle (htotal ▸ Nat.add_le_add_left hn _)

/-- The literal of a comparison completes an operand. -/
theorem of_literal {f : Frame} {outer : List Frame} {name : String} {operator : Operator}
    {value : Scalar}
    (hrun : run ⟨maxNesting, maxDepth⟩ front {} = .ok ⟨f, outer, .operator name operator⟩)
    (ht : t.kind = .literal value)
    (h : Overgrown ⟨maxNesting, maxDepth⟩ f (.leaf ⟨name, operator, value⟩) error) :
    FailsBetween (front ++ [t]) back error := by
  have hbounded := initial_bounded.run (by decide) hrun
  cases (initial_sound.run (by decide) hrun).reads with
  | operator ho hf hname hop =>
    refine of_overgrown (m := .leaf ⟨name, operator, value⟩) hrun (by rintro _ ⟨⟩) (by simp [ht])
      (List.append_assoc ..) ho hf (.comparison hname hop ht) hbounded.frame ?_ h
    simp only [Measured.leaf]
    decide

/-- The closing parenthesis completes an operand. -/
theorem of_closing {f g : Frame} {outer : List Frame} {right : Measured}
    (hrun : run ⟨maxNesting, maxDepth⟩ front {} = .ok ⟨f, g :: outer, .operand right⟩)
    (ht : t.kind = .closing) (hj : joined ⟨maxNesting, maxDepth⟩ .or right f.disjunction = .ok m)
    (h : Overgrown ⟨maxNesting, maxDepth⟩ g m error) : FailsBetween (front ++ [t]) back error := by
  have hbounded := initial_bounded.run (by decide) hrun
  obtain ⟨rfl, hle⟩ := joined_eq_ok hj
  cases (initial_sound.run (by decide) hrun).reads with
  | operand houter hd hm hdepth =>
    cases houter with
    | @cons _ _ o ts us ho hf hop =>
      refine of_overgrown hrun ?_ (by simp [ht]) ?_ ho hf
        (.parenthesised hop (hd.disjunction hm) ht) (hbounded.outer _ List.mem_cons_self)
        (hle hdepth) h
      · rintro _ ⟨⟩ -
        exact ⟨_, hj⟩
      · simp only [List.append_eq, List.append_assoc, List.cons_append, List.nil_append]

/-- The token behind what has been read is not taken. -/
theorem of_step (hrun : run ⟨maxNesting, maxDepth⟩ front {} = .ok s)
    (h : s.step ⟨maxNesting, maxDepth⟩ t = .error error) :
    ∃ front' back', front ++ t :: back = front' ++ back' ∧ FailsBetween front' back' error := by
  cases fails_of_step h with
  | misplaced hn hd => exact ⟨front, t :: back, rfl, of_misplaced hrun hn hd h⟩
  | nested ht hn => exact ⟨front, t :: back, rfl, of_nested hrun ht hn⟩
  | literal ht ho => exact ⟨front ++ [t], back, by simp, of_literal hrun ht ho⟩
  | chained ht hj => exact ⟨front, t :: back, rfl, of_chained hrun (by simpa using ht) hj⟩
  | closing ht hj ho => exact ⟨front ++ [t], back, by simp, of_closing hrun ht hj ho⟩

/-- Nothing is wrong with the tokens but that they end. -/
theorem of_end {expected : Expected} {position : ℕ}
    (hrun : run ⟨maxNesting, maxDepth⟩ front {} = .ok s)
    (hs : s.Settled ⟨maxNesting, maxDepth⟩ []) (hn : expected ≠ .shallowerNesting)
    (hd : expected ≠ .shallowerTree)
    (h : ofTokens front = .error ⟨position, expected, none⟩)
    (hposition : position = (front.getLast?.map Token.stop).getD 0) :
    FailsBetween front [] ⟨position, expected, none⟩ := by
  refine ⟨passes_of_run hrun _, fun _ u e hjoins => hjoins.depth_le hrun hs,
    fun hnested => absurd hnested hn, fun hdeep => absurd hdeep hd, fun _ _ => .inr ?_⟩
  refine ⟨rfl, fun e he => ?_, rfl, hposition⟩
  rcases limit_of_ofTokens_error he h with ⟨hlimit, -⟩ | ⟨hlimit, -⟩
  · exact hn hlimit
  · exact hd hlimit

end FailsBetween

/-- What is missing where the tokens end, unless the end shows that a chain of ORs is too deep. -/
theorem finish_eq_error {limits : Limits} {position : ℕ}
    (h : s.finish limits position = .error error) :
    (∃ f outer right, s = ⟨f, outer, .operand right⟩ ∧
      joined limits .or right f.disjunction = .error error) ∨
    ∃ expected, error = ⟨position, expected, none⟩ ∧ expected ≠ .shallowerNesting ∧
      expected ≠ .shallowerTree := by
  obtain ⟨f, outer, stage⟩ := s
  cases stage with
  | start | name | operator =>
    cases h
    exact .inr ⟨_, rfl, by simp, by simp⟩
  | operand right =>
    cases hj : joined limits .or right f.disjunction with
    | error error' =>
      simp only [State.finish, hj] at h
      cases h
      exact .inl ⟨f, outer, right, rfl, hj⟩
    | ok e =>
      simp only [State.finish, hj, bind, Except.bind] at h
      split at h <;> cases h
      exact .inr ⟨_, rfl, by simp, by simp⟩

theorem finish_of_read_error {limits : Limits} (hne : front ≠ []) (h : run limits front {} = .ok s)
    (herror : Reader.read limits front = .error error) :
    s.finish limits ((front.getLast?.map Token.stop).getD 0) = .error error := by
  simp only [run] at h
  simp only [Reader.read, List.getLast?_eq_some_getLast hne, h, bind, Except.bind] at herror
  rw [List.getLast?_eq_some_getLast hne, Option.map_some, Option.getD_some]
  cases hfinish : s.finish limits (front.getLast hne).stop with
  | error error' =>
    simp only [hfinish] at herror
    cases herror
    rfl
  | ok m => simp [hfinish, pure, Except.pure] at herror

theorem exists_failsBetween {tokens : List Token} (h : ofTokens tokens = .error error) :
    ∃ front back, tokens = front ++ back ∧ FailsBetween front back error := by
  cases tokens with
  | nil =>
    have herror := h
    cases h
    refine ⟨[], [], rfl, .of_end rfl ?_ (by simp) (by simp) herror rfl⟩
    rintro _ ⟨⟩
  | cons first rest =>
    have hne : first :: rest ≠ [] := List.cons_ne_nil _ _
    cases hrun : run ⟨maxNesting, maxDepth⟩ (first :: rest) {} with
    | error error' =>
      cases (read_of_run_error hne hrun).symm.trans h
      obtain ⟨front, t, back, next, heq, hfront, hstep⟩ := exists_of_run_error hrun
      rw [heq]
      exact FailsBetween.of_step hfront hstep
    | ok s =>
      refine ⟨first :: rest, [], (List.append_nil _).symm, ?_⟩
      have hfinish := finish_of_read_error hne hrun h
      rcases finish_eq_error hfinish with ⟨f, outer, right, rfl, hj⟩ | ⟨expected, rfl, hn, hd⟩
      · exact .of_chained hrun (by simp) hj
      · exact .of_end hrun (settled_of_finish hfinish hd) hn hd h rfl

/-- Nothing is wrong behind a place where something is. -/
theorem FailsBetween.eq_nil {between : List Token} {error' : ParseError}
    (h : FailsBetween front (between ++ back) error)
    (h' : FailsBetween (front ++ between) back error') : between = [] := by
  by_contra hne
  obtain ⟨t, rest, rfl⟩ := List.exists_cons_of_ne_nil hne
  have hnext : (front ++ [t]) ++ rest = front ++ t :: rest := by simp
  by_cases hdeep : error.expected = .shallowerTree
  · obtain ⟨u, e, hjoins, hdepth, -⟩ := h.deep hdeep
    have hle := h'.shallow front (t :: rest) u e rfl hne hjoins
    omega
  by_cases hnested : error.expected = .shallowerNesting
  · obtain ⟨u, _, hu, hopen, -, hopened, -⟩ := h.nested hnested
    cases hu
    have hle := (Token.nesting_le_iff _ _).mp h'.nesting_le (front ++ [t]) ⟨rest, hnext⟩
    simp only [Token.opened_append, Token.closed_append, Token.opened_cons, Token.closed_cons,
      hopen, Token.opened_nil, Token.closed_nil, reduceCtorEq, if_true, if_false] at hle
    omega
  · rcases h.impossible hnested hdeep with ⟨u, _, hu, hbegins, -⟩ | ⟨hnil, -⟩
    · cases hu
      exact hbegins (Begins.of_append rest (hnext ▸ h'.begins))
    · simp at hnil

theorem FailsBetween.front_eq {front' back' : List Token} {error' : ParseError}
    (h : FailsBetween front back error) (h' : FailsBetween front' back' error')
    (heq : front ++ back = front' ++ back') : front = front' := by
  rcases List.append_eq_append_iff.mp heq with ⟨between, rfl, rfl⟩ | ⟨between, rfl, rfl⟩
  · rw [h.eq_nil h', List.append_nil]
  · rw [h'.eq_nil h, List.append_nil]

/-- An error of the reader stands at the first place where something is wrong, and there is one such
place only. A rule can begin with the tokens before it, within the limits. The next token is none
that a rule could have there, or it is one parenthesis too many, or the tokens end where no rule
does, or the operands of an operator end there and are too deep for it. -/
theorem failsBetween_of_ofTokens {tokens : List Token} (h : ofTokens tokens = .error error) :
    ∃ front back, tokens = front ++ back ∧ FailsBetween front back error ∧
      ∀ front' back' error', tokens = front' ++ back' → FailsBetween front' back' error' →
        front' = front := by
  obtain ⟨front, back, rfl, hfails⟩ := exists_failsBetween h
  refine ⟨front, back, rfl, hfails, fun front' back' error' heq hfails' => ?_⟩
  exact hfails'.front_eq hfails heq.symm

/-- A rule that ends behind an AND, one with a literal where an attribute should be, and more
parentheses than may be open. -/
theorem failsBetween_missing :
    let name : Token := ⟨.identifier "a", "a", 0⟩
    let operator : Token := ⟨.comparison .equal, "=", 2⟩
    let literal : Token := ⟨.literal (.boolean true), "true", 4⟩
    let connective : Token := ⟨.connective .and, "AND", 9⟩
    let opening : Token := ⟨.opening, "(", 0⟩
    (∃ front back, [name, operator, literal, connective] = front ++ back ∧
      FailsBetween front back ⟨12, .operand, none⟩) ∧
    (∃ front back, [literal, operator] = front ++ back ∧
      FailsBetween front back ⟨4, .operand, some literal⟩) ∧
    ∃ front back, List.replicate 257 opening = front ++ back ∧
      FailsBetween front back ⟨0, .shallowerNesting, some opening⟩ := by
  intro name operator literal connective opening
  have hended : ofTokens [name, operator, literal, connective] = .error ⟨12, .operand, none⟩ := by
    decide +kernel
  have hmisplaced : ofTokens [literal, operator] = .error ⟨4, .operand, some literal⟩ := by
    decide +kernel
  have hnested : ofTokens (List.replicate 257 opening) =
      .error ⟨0, .shallowerNesting, some opening⟩ := by
    decide +kernel
  refine ⟨?ended, ?misplaced, ?nested⟩
  case ended =>
    obtain ⟨front, back, heq, hfails, -⟩ := failsBetween_of_ofTokens hended
    exact ⟨front, back, heq, hfails⟩
  case misplaced =>
    obtain ⟨front, back, heq, hfails, -⟩ := failsBetween_of_ofTokens hmisplaced
    exact ⟨front, back, heq, hfails⟩
  case nested =>
    obtain ⟨front, back, heq, hfails, -⟩ := failsBetween_of_ofTokens hnested
    exact ⟨front, back, heq, hfails⟩

end Expr
end Criteria
