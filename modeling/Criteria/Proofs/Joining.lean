import Criteria.Proofs.Agreement
import Criteria.Proofs.Canonical
import Criteria.Proofs.Combination
import Criteria.Proofs.Scanning.Extension
import Mathlib.Data.List.Forall2

/-! Rules joined as text and rules combined as expressions. The text of the rules, each in
parentheses, with the word of the strategy between them, is read as their combination. -/
namespace Criteria

/-- The texts of rules, each in parentheses, with the word of the strategy between them. -/
def Strategy.joinText (s : Strategy) (texts : List String) : String :=
  String.intercalate (" " ++ s.connective.word ++ " ") (texts.map fun text => "(" ++ text ++ ")")

namespace Expr

/-- The level at which operands of a connective make a chain. -/
def Level.ofConnective : Connective → Level
  | .or => .disjunction
  | .and => .conjunction

theorem ofPrecedence_join (o : Connective) (l r : Expr) :
    Level.ofPrecedence (join o l r).precedence = .ofConnective o := by
  cases o <;> rfl

/-- Characters that split into a derivation of `e` that is nested no deeper than the limit. -/
def WrittenWithin (limit : ℕ) (level : Level) (chars : List Char) (e : Expr) : Prop :=
  ∃ ks n, Written level chars e ks n ∧ n ≤ limit

/-- A text whose tokens are derived has the same tokens inside a longer one. -/
theorem written_of_scan {text : String} {tokens : List Token} {e : Expr}
    (hs : Token.scan text = .ok tokens) (hd : Derives .disjunction tokens e) :
    Written .disjunction text.toList e (tokens.map Token.kind) (Token.nesting tokens) := by
  intro p rest hr
  obtain ⟨q, hsplits⟩ := Token.splits_of_scanFrom hs
  have hmoved := (hsplits.extend hr.apart.severs).shift p
  have hkinds : (tokens.map (Token.shift p)).map Token.kind = tokens.map Token.kind := by simp
  rw [Nat.zero_add] at hmoved
  exact ⟨_, q + p, hmoved, hd.of_kinds hkinds, hkinds, Token.nesting_congr hkinds⟩

/-- What is read stands in parentheses as an operand, one level deeper. -/
theorem writtenWithin_of_parse {text : String} {tokens : List Token} {e : Expr}
    (h : parse text = .ok e) (hs : Token.scan text = .ok tokens)
    (hn : Token.nesting tokens < maxNesting) :
    WrittenWithin maxNesting .atom ("(" ++ text ++ ")").toList e := by
  obtain ⟨hd, -, -⟩ := (parse_eq_ok_iff_of_scan hs).mp h
  have hw := (written_of_scan hs hd).parenthesised
  exact ⟨_, _, by simpa using hw, hn⟩

namespace WrittenWithin

variable {limit : ℕ} {e : Expr} {text : String}

/-- An operand makes a chain by itself. -/
theorem operand (o : Connective) (h : WrittenWithin limit .atom text.toList e) :
    WrittenWithin limit (.ofConnective o) text.toList e := by
  obtain ⟨ks, n, h, hn⟩ := h
  have hlevel : (Expr.join o e e).precedence ≤ 4 := by
    cases o <;> simp [precedence]
  rw [← ofPrecedence_join o e e]
  exact ⟨ks, n, h.weaken (p := 4) hlevel, hn⟩

theorem join (o : Connective) {l r : Expr} {left right : String}
    (hl : WrittenWithin limit (.ofConnective o) left.toList l)
    (hr : WrittenWithin limit .atom right.toList r) :
    WrittenWithin limit (.ofConnective o) (left ++ (" " ++ o.word ++ " ") ++ right).toList
      (.join o l r) := by
  obtain ⟨ks, n, hl, hn⟩ := hl
  obtain ⟨js, m, hr, hm⟩ := hr
  rw [← ofPrecedence_join o l r] at hl ⊢
  have hlevel : (Expr.join o l r).precedence + 1 ≤ 4 := by
    cases o <;> simp [precedence]
  have hj := Written.joined o hl (hr.weaken (p := 4) hlevel)
  exact ⟨_, _, by simpa using hj, Nat.max_le.mpr ⟨hn, hm⟩⟩

/-- Operands with the word of a connective between them are a chain from left to right. -/
theorem chain (o : Connective) {texts : List String} {rest : List Expr}
    (h : WrittenWithin limit (.ofConnective o) text.toList e)
    (hrest : List.Forall₂ (fun text e => WrittenWithin limit .atom text.toList e) texts rest) :
    WrittenWithin limit (.ofConnective o)
      (String.intercalate (" " ++ o.word ++ " ") (text :: texts)).toList (Expr.chain o e rest) := by
  induction hrest generalizing text e with
  | nil => simpa [Expr.chain] using h
  | @cons next f texts rest hnext hrest ih =>
    have hfirst := ih (h.join o hnext)
    rw [String.intercalate_cons_append] at hfirst
    rw [String.intercalate_cons_cons]
    exact hfirst

/-- A text that nests within the limit is read as its expression, or this is too deep. -/
theorem parse_cases {o : Connective}
    (h : WrittenWithin maxNesting (.ofConnective o) text.toList e) :
    (e.depth ≤ maxDepth ∧ parse text = .ok e) ∨
      (maxDepth < e.depth ∧ ∃ error, parse text = .error (.grammatical error) ∧
        error.expected = .shallowerTree) := by
  obtain ⟨ks, n, h, hn⟩ := h
  obtain ⟨tokens, q, hsplits, hlevel, -, hnesting⟩ := h 0 [] .nil
  rw [List.append_nil] at hsplits
  have hs : Token.scan text = .ok tokens := hsplits.scanFrom_eq_ok
  have hd : Derives .disjunction tokens e := by
    cases o with
    | or => exact hlevel
    | and => exact .single hlevel
  rcases Nat.lt_or_ge maxDepth e.depth with hdepth | hdepth
  · right
    refine ⟨hdepth, ?_⟩
    cases htokens : ofTokens tokens with
    | ok f =>
      obtain ⟨hf, -, hle⟩ := (parse_eq_ok_iff_of_scan (e := f) hs).mp (by simp [parse, hs, htokens])
      obtain rfl := Reader.derives_unique hd hf
      omega
    | error error =>
      refine ⟨error, by simp [parse, hs, htokens], ?_⟩
      rcases limit_of_ofTokens_error hd htokens with ⟨-, hover⟩ | ⟨hexpected, -⟩
      · omega
      · exact hexpected
  · exact .inl ⟨hdepth, (parse_eq_ok_iff_of_scan hs).mpr ⟨hd, hnesting ▸ hn, hdepth⟩⟩

end WrittenWithin

theorem Valid.noNaN {e : Expr} (h : e.Valid) : e.NoNaN := by
  intro c hc
  have hfinite := h.isFinite c hc
  cases hvalue : c.value with
  | number x =>
    rw [hvalue, Scalar.isFinite, Binary64.isFinite, decide_eq_true_eq] at hfinite
    simp [Scalar.isNaN, Binary64.isNaN, Nat.le_of_lt hfinite]
  | boolean | string => rfl

/-- The text is read as the expression and leaves room for one more parenthesis. -/
structure Joinable (text : String) (e : Expr) : Prop where
  parse_eq : parse text = .ok e
  nesting_lt : ∃ tokens, Token.scan text = .ok tokens ∧ Token.nesting tokens < maxNesting

theorem joinable_text {e : Expr} (he : e.defect? = none) (hn : e.nesting < maxNesting) :
    Joinable e.text e := by
  obtain ⟨tokens, hs, -, htokens⟩ := scan_text ((defect?_eq_none_iff e).mp he).2
  exact ⟨parse_text_of_nesting_le he hn.le, tokens, hs, htokens ▸ hn⟩

theorem joinable_leaf {c : Comparison} (hc : c.defect? = none) :
    Joinable (leaf c).text (leaf c) :=
  joinable_text (defect?_ladder hc (n := 0) (by decide)) (Nat.zero_lt_succ 255)

theorem Joinable.writtenWithin {text : String} {e : Expr} (h : Joinable text e) :
    WrittenWithin maxNesting .atom ("(" ++ text ++ ")").toList e := by
  obtain ⟨tokens, hs, hn⟩ := h.nesting_lt
  exact writtenWithin_of_parse h.parse_eq hs hn

theorem writtenWithin_joinText (s : Strategy) {text : String} {texts : List String} {first : Node}
    {rest : List Node} (hfirst : Joinable text first.expr)
    (hrest : List.Forall₂ (fun text n => Joinable text n.expr) texts rest) :
    WrittenWithin maxNesting (.ofConnective s.connective) (s.joinText (text :: texts)).toList
      (chain s.connective first.expr (rest.map Node.expr)) := by
  refine .chain s.connective (hfirst.writtenWithin.operand _) ?_
  rw [List.forall₂_map_left_iff, List.forall₂_map_right_iff]
  exact hrest.imp fun _ _ h => h.writtenWithin

end Expr

/-- The text of two rules and more, each in parentheses with the word of the strategy between them,
can be read exactly if the rules can be combined, and it is read as their combination. Where they
are too deep for that, the reader has met an operator with too many levels below it. -/
theorem Strategy.joined_text_combines {nodes : Set Node} {fresh : ℕ} (h : Node.Arena nodes fresh)
    (s : Strategy) (deduplicate : Bool) {texts : List String} {rules : List Node}
    (hcount : 2 ≤ texts.length) (hmem : ∀ n ∈ rules, n ∈ nodes)
    (hjoinable : List.Forall₂ (fun text n => Expr.Joinable text n.expr) texts rules) :
    ((∃ e, Expr.parse (s.joinText texts) = .ok e) ↔
      ∃ result, combine rules s deduplicate fresh = .ok result) ∧
    (∀ e result, Expr.parse (s.joinText texts) = .ok e →
      combine rules s deduplicate fresh = .ok result →
      e.agrees result.1.expr = true ∧ (deduplicate = false → result.1.expr = e)) ∧
    ∀ depth max, combine rules s deduplicate fresh = .error (.tooDeep depth max) → ∃ error,
      Expr.parse (s.joinText texts) = .error (.grammatical error) ∧
        error.expected = .shallowerTree := by
  cases hjoinable with
  | nil => simp at hcount
  | @cons text first texts rules hfirst hrest =>
  cases hrest with
  | nil => simp at hcount
  | @cons other second texts rest hsecond hrest =>
  have hwritten := Expr.writtenWithin_joinText s hfirst (.cons hsecond hrest)
  rcases hwritten.parse_cases with ⟨hdepth, hparse⟩ | ⟨hdepth, error, hparse, herror⟩
  · obtain ⟨result, hresult⟩ := exists_combine deduplicate fresh hdepth
    rw [hparse, hresult]
    refine ⟨by simp, ?_, by simp⟩
    rintro e _ ⟨⟩ ⟨⟩
    refine ⟨?_, ?_⟩
    · obtain ⟨-, hcombined⟩ := combined_of_combine h hmem hresult
      obtain ⟨_, _, _, hrules, hzeros⟩ := hcombined.exists_chain
      cases hrules
      have hvalid := Expr.valid_of_defect? (Expr.defect?_of_parse hparse)
      exact (Expr.agrees_iff _ _).mpr ⟨hvalid.noNaN, hzeros.symm⟩
    · rintro rfl
      obtain ⟨_, _, _, hrules, -, rfl⟩ := combine_eq_ok hresult
      cases hrules
      exact expr_chain s.connective first (second :: rest) fresh
  · have hnone : ¬ ∃ result,
        combine (first :: second :: rest) s deduplicate fresh = .ok result := by
      rintro ⟨result, hresult⟩
      obtain ⟨_, _, _, hrules, hle, -⟩ := combine_eq_ok hresult
      cases hrules
      rw [chainDepth_eq s.connective] at hle
      omega
    rw [hparse]
    refine ⟨by simpa using hnone, by simp, fun _ _ _ => ⟨error, rfl, herror⟩⟩

/-- Two rules that differ in the sign of their zeros, and one rule that is joined too often. -/
theorem Strategy.joined_text_combines_zeros :
    let c : Comparison := ⟨"a", .less, .number ⟨0⟩⟩
    let d : Comparison := ⟨"a", .less, .number ⟨0x8000000000000000⟩⟩
    let e : Expr := .join .or (.leaf c) (.leaf d)
    (Expr.parse "(a < 0) OR (a < -0)" = .ok e ∧ ∃ result,
      combine [.leaf 0 c, .leaf 1 d] .any true 2 = .ok result ∧ e.agrees result.1.expr = true) ∧
    ∃ error, Expr.parse (Strategy.all.joinText ("a < 0" :: List.replicate 512 "a < 0")) =
      .error (.grammatical error) ∧ error.expected = .shallowerTree := by
  intro c d e
  have hc : Expr.Joinable "a < 0" (.leaf c) := by
    have htext : (Expr.leaf c).text = "a < 0" := by decide +kernel
    exact htext ▸ Expr.joinable_leaf (by decide +kernel)
  have hd : Expr.Joinable "a < -0" (.leaf d) := by
    have htext : (Expr.leaf d).text = "a < -0" := by decide +kernel
    exact htext ▸ Expr.joinable_leaf (by decide +kernel)
  refine ⟨?_, ?_⟩
  · have hjoined : Strategy.any.joinText ["a < 0", "a < -0"] = "(a < 0) OR (a < -0)" := by
      decide +kernel
    have hparse : Expr.parse "(a < 0) OR (a < -0)" = .ok e := by decide +kernel
    have hrules : List.Forall₂ (fun text (n : Node) => Expr.Joinable text n.expr)
        ["a < 0", "a < -0"] [.leaf 0 c, .leaf 1 d] := .cons hc (.cons hd .nil)
    obtain ⟨hiff, hagrees, -⟩ :=
      Strategy.joined_text_combines (.leaves c d) .any true (by simp) (by simp) hrules
    rw [hjoined] at hiff hagrees
    obtain ⟨result, hresult⟩ := hiff.mp ⟨e, hparse⟩
    exact ⟨hparse, result, hresult, (hagrees e result hparse hresult).1⟩
  · have hrules (k : ℕ) : List.Forall₂ (fun text (n : Node) => Expr.Joinable text n.expr)
        (List.replicate k "a < 0") (List.replicate k (.leaf 0 c)) := by
      induction k with
      | zero => exact .nil
      | succ k ih => exact .cons hc ih
    have hdeep (k : ℕ) (hk : 512 ≤ k) : ∃ error,
        Expr.parse (Strategy.all.joinText ("a < 0" :: List.replicate k "a < 0")) =
          .error (.grammatical error) ∧ error.expected = .shallowerTree := by
      have hcount : 2 ≤ (List.replicate (k + 1) "a < 0").length := by
        rw [List.length_replicate]
        omega
      obtain ⟨-, -, htooDeep⟩ :=
        Strategy.joined_text_combines (.leaf c) .all true hcount (by simp) (hrules (k + 1))
      refine htooDeep _ _ (combine_replicate _ (by omega) _ _ _ ?_)
      rw [Node.expr, Expr.depth_leaf, Nat.add_comm]
      exact Nat.lt_succ_of_le hk
    exact hdeep 512 le_rfl

end Criteria
