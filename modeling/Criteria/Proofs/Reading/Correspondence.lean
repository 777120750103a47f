import Criteria.Expr.Reader
import Mathlib.Data.List.Forall2
import Mathlib.Tactic.Lemma

/-! Two lists of tokens that are read side by side. The reader decides by the kinds of the tokens
alone, so where these are the same it makes the same expression of both lists, or fails on both with
one expectation, at tokens that correspond. -/
namespace Criteria

/-- Both fail with errors that are related, or both succeed with results that are. -/
inductive Paired {ε δ α β : Type} (E : ε → δ → Prop) (R : α → β → Prop) :
    Except ε α → Except δ β → Prop
  | ok {a b} (h : R a b) : Paired E R (.ok a) (.ok b)
  | error {e d} (h : E e d) : Paired E R (.error e) (.error d)

theorem Paired.bind {ε δ α β α' β' : Type} {E : ε → δ → Prop} {R : α → β → Prop}
    {S : α' → β' → Prop} {x : Except ε α} {y : Except δ β} {f : α → Except ε α'}
    {g : β → Except δ β'} (hx : Paired E R x y) (hf : ∀ a b, R a b → Paired E S (f a) (g b)) :
    Paired E S (x >>= f) (y >>= g) := by
  cases hx with
  | ok h => exact hf _ _ h
  | error h => exact .error h

/-- Errors that expect the same, at tokens that correspond or where the tokens end, which is at `p`
and at `q`. -/
inductive ParseError.Matches (R : Token → Token → Prop) (p q : ℕ) : ParseError → ParseError → Prop
  | token {t u expected} (h : R t u) :
      Matches R p q ⟨t.position, expected, some t⟩ ⟨u.position, expected, some u⟩
  | ending {expected} : Matches R p q ⟨p, expected, none⟩ ⟨q, expected, none⟩

/-- The place where a list of tokens ends. -/
def Token.lastStop (ts : List Token) : ℕ := (ts.getLast?.map stop).getD 0

namespace Expr.Reader

structure Pending.Matches (R : Token → Token → Prop) (a b : Pending) : Prop where
  left : a.left = b.left
  operator : R a.operator b.operator

structure Frame.Matches (R : Token → Token → Prop) (f g : Frame) : Prop where
  disjunction : Option.Rel (Pending.Matches R) f.disjunction g.disjunction
  conjunction : Option.Rel (Pending.Matches R) f.conjunction g.conjunction
  negation : Option.Rel R f.negation g.negation

/-- States that differ in nothing but their tokens, and these correspond. -/
structure State.Matches (R : Token → Token → Prop) (s s' : State) : Prop where
  frame : Frame.Matches R s.frame s'.frame
  outer : List.Forall₂ (Frame.Matches R) s.outer s'.outer
  stage : s.stage = s'.stage

variable {R : Token → Token → Prop} {limits : Limits} {p q : ℕ} {t u : Token} {s s' : State}

theorem Frame.matches_empty : Frame.Matches R {} {} := ⟨.none, .none, .none⟩

theorem State.matches_empty : State.Matches R {} {} := ⟨Frame.matches_empty, .nil, rfl⟩

theorem paired_checked (h : R t u) (m : Measured) :
    Paired (ParseError.Matches R p q) Eq (checked limits t m) (checked limits u m) := by
  unfold checked
  split
  · exact .error (.token h)
  · exact .ok rfl

theorem paired_joined {a b : Option Pending} (h : Option.Rel (Pending.Matches R) a b)
    (o : Connective) (m : Measured) :
    Paired (ParseError.Matches R p q) Eq (joined limits o m a) (joined limits o m b) := by
  cases h with
  | none => exact .ok rfl
  | some h =>
    rw [joined, joined, h.left]
    exact paired_checked h.operator _

theorem paired_complete (h : State.Matches R s s') (m : Measured) :
    Paired (ParseError.Matches R p q) (State.Matches R) (s.complete limits m)
      (s'.complete limits m) := by
  obtain ⟨⟨disjunction, conjunction, negation⟩, outer, stage⟩ := s
  obtain ⟨⟨disjunction', conjunction', negation'⟩, outer', stage'⟩ := s'
  obtain ⟨⟨hdisjunction, hconjunction, hnegation⟩, houter, -⟩ := h
  have hjoined (m : Measured) : Paired (ParseError.Matches R p q) (State.Matches R)
      (State.complete limits ⟨⟨disjunction, conjunction, none⟩, outer, stage⟩ m)
      (State.complete limits ⟨⟨disjunction', conjunction', none⟩, outer', stage'⟩ m) := by
    refine (paired_joined hconjunction .and m).bind ?_
    rintro m _ rfl
    exact .ok ⟨⟨hdisjunction, .none, .none⟩, houter, rfl⟩
  cases hnegation with
  | none => exact hjoined m
  | some h =>
    refine (paired_checked h m.not).bind ?_
    rintro m _ rfl
    exact hjoined m

/-- Tokens of one kind take states that match to states that match, or are refused alike. -/
theorem paired_step (hs : State.Matches R s s') (h : R t u) (hkind : t.kind = u.kind) :
    Paired (ParseError.Matches R p q) (State.Matches R) (s.step limits t) (s'.step limits u) := by
  obtain ⟨f, outer, stage⟩ := s
  obtain ⟨f', outer', stage'⟩ := s'
  obtain ⟨hframe, houter, hstage⟩ := hs
  obtain ⟨kind, text, position⟩ := t
  obtain ⟨kind', text', position'⟩ := u
  cases hstage
  cases hkind
  cases stage with
  | start =>
    cases kind with
    | not =>
      have hnegation := hframe.negation
      obtain ⟨disjunction, conjunction, negation⟩ := f
      obtain ⟨disjunction', conjunction', negation'⟩ := f'
      cases hnegation with
      | none => exact .ok ⟨⟨hframe.disjunction, hframe.conjunction, .some h⟩, houter, rfl⟩
      | some _ => exact .error (.token h)
    | opening =>
      simp only [State.step, houter.length_eq]
      split
      · exact .error (.token h)
      · exact .ok ⟨Frame.matches_empty, .cons hframe houter, rfl⟩
    | identifier name => exact .ok ⟨hframe, houter, rfl⟩
    | _ => exact .error (.token h)
  | name name =>
    cases kind with
    | comparison operator => exact .ok ⟨hframe, houter, rfl⟩
    | _ => exact .error (.token h)
  | operator name operator =>
    cases kind with
    | literal value => exact paired_complete ⟨hframe, houter, rfl⟩ _
    | _ => exact .error (.token h)
  | operand m =>
    have hjoined : Paired (ParseError.Matches R p q) Eq (joined limits .or m f.disjunction)
        (joined limits .or m f'.disjunction) := paired_joined hframe.disjunction .or m
    cases kind with
    | connective o =>
      cases o with
      | and => exact .ok ⟨⟨hframe.disjunction, .some ⟨rfl, h⟩, hframe.negation⟩, houter, rfl⟩
      | or =>
        refine hjoined.bind ?_
        rintro m _ rfl
        exact .ok ⟨⟨.some ⟨rfl, h⟩, .none, .none⟩, houter, rfl⟩
    | closing =>
      refine hjoined.bind ?_
      rintro m _ rfl
      cases houter with
      | nil => exact .error (.token h)
      | @cons g g' outer outer' hg houter =>
        have hclosed : State.Matches R ⟨g, outer, .start⟩ ⟨g', outer', .start⟩ :=
          ⟨hg, houter, rfl⟩
        exact paired_complete hclosed m
    | _ =>
      refine hjoined.bind ?_
      rintro m _ rfl
      cases houter with
      | nil => exact .error (.token h)
      | cons _ _ => exact .error (.token h)

theorem paired_run (hkind : ∀ t u, R t u → t.kind = u.kind) {ts us : List Token}
    (h : List.Forall₂ R ts us) (hs : State.Matches R s s') :
    Paired (ParseError.Matches R p q) (State.Matches R) (ts.foldlM (State.step limits) s)
      (us.foldlM (State.step limits) s') := by
  induction h generalizing s s' with
  | nil => exact .ok hs
  | cons htu _ ih =>
    rw [List.foldlM_cons, List.foldlM_cons]
    exact (paired_step hs htu (hkind _ _ htu)).bind fun _ _ hnext => ih hnext

theorem paired_finish (hs : State.Matches R s s') :
    Paired (ParseError.Matches R p q) Eq (s.finish limits p) (s'.finish limits q) := by
  obtain ⟨f, outer, stage⟩ := s
  obtain ⟨f', outer', stage'⟩ := s'
  obtain ⟨hframe, houter, hstage⟩ := hs
  cases hstage
  cases stage with
  | operand m =>
    refine (paired_joined hframe.disjunction .or m).bind ?_
    rintro m _ rfl
    cases houter with
    | nil => exact .ok rfl
    | cons _ _ => exact .error .ending
  | _ => exact .error .ending

/-- Lists of corresponding tokens are read as one expression or fail alike. -/
theorem paired_read (limits : Limits) (hkind : ∀ t u, R t u → t.kind = u.kind)
    {ts us : List Token} (h : List.Forall₂ R ts us) :
    Paired (ParseError.Matches R (Token.lastStop ts) (Token.lastStop us)) Eq
      (read limits ts) (read limits us) := by
  cases h with
  | nil => exact .error .ending
  | @cons t u ts us htu hrest =>
    have hts := List.getLast?_eq_some_getLast (List.cons_ne_nil t ts)
    have hus := List.getLast?_eq_some_getLast (List.cons_ne_nil u us)
    simp only [Token.lastStop, read, hts, hus]
    refine (paired_run hkind (.cons htu hrest) State.matches_empty).bind fun _ _ hs => ?_
    refine (paired_finish hs).bind ?_
    rintro m _ rfl
    exact .ok rfl

end Expr.Reader
end Criteria
