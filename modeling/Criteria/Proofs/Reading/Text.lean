import Criteria.Proofs.Reading.Derivation
import Criteria.Proofs.Scanning.Lexemes
import Criteria.Proofs.Validity

/-! Reading a text: it is split into tokens, and these are derived as an expression within the
limits. What is read has no defect. -/
namespace Criteria.Expr

variable {text : String} {tokens : List Token} {e : Expr}

/-- A text that has tokens is read exactly if these are derived within the limits. -/
theorem parse_eq_ok_iff_of_scan (hs : Token.scan text = .ok tokens) : parse text = .ok e ↔
    Derives .disjunction tokens e ∧ Token.nesting tokens ≤ maxNesting ∧ e.depth ≤ maxDepth := by
  rw [← Reader.read_eq_ok_iff ⟨maxNesting, maxDepth⟩ (by decide)]
  simp only [parse, hs, ofTokens]
  cases Reader.read ⟨maxNesting, maxDepth⟩ tokens <;> simp

theorem parse_eq_ok_iff : parse text = .ok e ↔ ∃ tokens, Token.scan text = .ok tokens ∧
    Derives .disjunction tokens e ∧ Token.nesting tokens ≤ maxNesting ∧ e.depth ≤ maxDepth := by
  cases hs : Token.scan text with
  | error error => simp [parse, hs]
  | ok tokens => simp [parse_eq_ok_iff_of_scan hs]

/-- Reading the text stops at the first parenthesis that is opened while the limit of them are. -/
def Overruns (text : String) (tokens : List Token) : Prop :=
  ∃ front t back, tokens = front ++ t :: back ∧ t.kind = .opening ∧
    text.toList[t.position]? = some '(' ∧ Token.nesting front ≤ maxNesting ∧
    Token.opened front = Token.closed front + maxNesting ∧
    parse text = .error (.grammatical ⟨t.position, .shallowerNesting, some t⟩)

/-- A derivation that is nested too deep, and is no deeper than allowed otherwise, is not read. -/
theorem overruns_of_scan (hs : Token.scan text = .ok tokens) (hd : Derives .disjunction tokens e)
    (hn : maxNesting < Token.nesting tokens) (hdepth : e.depth ≤ maxDepth) :
    Overruns text tokens := by
  rcases Token.overrun?_cases maxNesting hd.balanced.front with
    ⟨-, hle⟩ | ⟨front, t, back, rfl, ho, hk, hopen, hfront⟩
  · omega
  · obtain ⟨q, hsplits⟩ := Token.splits_of_scanFrom hs
    obtain ⟨-, hplace⟩ := hsplits.getElem?_of_mem Token.eq_of_lexeme_opening (t := t) (by simp) hk
    refine ⟨front, t, back, rfl, hk, hplace, hfront, hopen, ?_⟩
    cases Reader.outcome_of_read ⟨maxNesting, maxDepth⟩ hd with
    | done hnone _ => cases hnone.symm.trans ho
    | tooDeep hdeep _ => exact absurd hdepth (Nat.not_le.mpr hdeep)
    | overrun hsome hread =>
      cases hsome.symm.trans ho
      simp only [parse, hs, ofTokens, hread]
      rfl

/-- The leaves of a derivation are made of the names and literals of its tokens. -/
theorem Derives.defect?_leaves {level : Level} (h : Derives level tokens e)
    (hsound : ∀ t ∈ tokens, t.kind.Sound) : ∀ c ∈ e.leaves, c.defect? = none := by
  induction h with
  | single _ ih | factor _ ih | plain _ ih => exact ih hsound
  | or _ _ _ ihl ihr | and _ _ _ ihl ihr =>
    simp only [List.forall_mem_append, List.forall_mem_cons] at hsound
    exact List.forall_mem_append.mpr ⟨ihl hsound.1, ihr hsound.2.2⟩
  | not _ _ ih => exact ih (List.forall_mem_cons.mp hsound).2
  | @comparison n o v name operator value hn ho hv =>
    have hname : n.kind.Sound := hsound n (by simp)
    have hvalue : v.kind.Sound := hsound v (by simp)
    rw [hn] at hname
    rw [hv] at hvalue
    simpa [leaves, Comparison.defect?_eq_none_iff] using ⟨hname, hvalue⟩
  | parenthesised _ _ _ ih =>
    simp only [List.forall_mem_append, List.forall_mem_cons] at hsound
    exact ih hsound.2.1

/-- What is read from a text has no defect. -/
theorem defect?_of_parse (h : parse text = .ok e) : e.defect? = none := by
  obtain ⟨tokens, hs, hd, -, hdepth⟩ := parse_eq_ok_iff.mp h
  obtain ⟨q, hsplits⟩ := Token.splits_of_scanFrom hs
  exact (defect?_eq_none_iff e).mpr ⟨hdepth, hd.defect?_leaves hsplits.sound⟩

end Criteria.Expr
