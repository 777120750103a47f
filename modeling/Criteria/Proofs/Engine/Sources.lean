import Criteria.Proofs.Engine.Runs

/-! Whether the text of a rule that is kept can be read again. It can up to the limit on nested
parentheses, which the canonical text of a combination may exceed. -/
namespace Criteria

theorem Expr.nesting_unsignedZeros (e : Expr) : e.unsignedZeros.nesting = e.nesting := by
  have hprecedence (e : Expr) : e.unsignedZeros.precedence = e.precedence := by
    cases e with
    | leaf c | not e => rfl
    | join o l r => cases o <;> rfl
  induction e with
  | leaf c => rfl
  | join o l r ihl ihr =>
    have hown := hprecedence (join o l r)
    rw [unsignedZeros] at hown
    simp only [unsignedZeros, nesting, ihl, ihr, hprecedence l, hprecedence r, hown]
  | not e ih => simp only [unsignedZeros, nesting, ih, hprecedence e]

namespace Engine

variable {e : Engine} {m : Memory}

/-- A combination of two rules is kept under its canonical text. -/
theorem find_after_combining (settings : Settings) {first second : Expr}
    (hfirst : Expr.parse first.text = .ok first) (hsecond : Expr.parse second.text = .ok second)
    (hdepth : (Expr.join .and first second).depth ≤ Expr.maxDepth) :
    ∃ node, (after settings
        (creating first second ++ [.saveCombined [1, 2] (some .all)])).1.find 3 =
          .ok ⟨3, node.expr.text, node⟩ ∧
      node.expr.unsignedZeros = (Expr.join .and first second).unsignedZeros := by
  obtain ⟨l, r, rfl, rfl, hnext, hfind⟩ := find_after_creating settings hfirst hsecond
  obtain ⟨node, hcombined, hsaved⟩ := after_saveCombined settings _ .all hfind hdepth
  obtain ⟨first, second, rest, heq, hzeros⟩ := hcombined.exists_chain
  cases heq
  exact ⟨node, by rw [hsaved, find_keep, hnext, if_pos rfl], hzeros⟩

/-- The calls that combine a comparison with the highest ladder of it that can be read. -/
def overloading : List Request :=
  let c : Comparison := ⟨"a", .equal, .boolean true⟩
  creating (.leaf c) (.ladder c 257) ++ [.saveCombined [1, 2] (some .all)]

theorem find_after_overloading : ∃ node, node.expr.nesting = 257 ∧
    (after {} overloading).1.find 3 = .ok ⟨3, node.expr.text, node⟩ := by
  let c : Comparison := ⟨"a", .equal, .boolean true⟩
  have hc : c.defect? = none := c.defect?_eq_none_iff.mpr ⟨by decide, rfl⟩
  have hvalid {n : ℕ} (hn : n < Expr.maxDepth) := Expr.defect?_ladder hc hn
  have hfirst : Expr.parse (Expr.leaf c).text = .ok (.leaf c) :=
    Expr.parse_text_of_nesting_le (hvalid (n := 0) (by decide)) (Nat.zero_le _)
  have hsecond : Expr.parse (Expr.ladder c 257).text = .ok (Expr.ladder c 257) :=
    Expr.parse_text_of_nesting_le (hvalid (by decide)) (by rw [Expr.nesting_ladder]; decide)
  obtain ⟨hdepth, -⟩ := (Expr.defect?_eq_none_iff _).mp (hvalid (n := 258) (by decide))
  obtain ⟨node, hfind, hzeros⟩ := find_after_combining {} hfirst hsecond hdepth
  refine ⟨node, ?_, hfind⟩
  rw [← Expr.nesting_unsignedZeros, hzeros, Expr.nesting_unsignedZeros]
  exact Expr.nesting_ladder c 257

/-- The text of a kept rule has tokens, and it is read as the rule's expression if and only if they
nest parentheses within the limit. If they do not, the rule was made by combining, as its text is
canonical, and reading stops at the first parenthesis that goes beyond the limit. -/
theorem parse_source_iff (h : Reachable e m) {id : RuleId} {rule : Rule}
    (hrule : e.find id = .ok rule) : ∃ tokens, Token.scan rule.source = .ok tokens ∧
      (Expr.parse rule.source = .ok rule.node.expr ↔ Token.nesting tokens ≤ Expr.maxNesting) ∧
      (Expr.maxNesting < Token.nesting tokens →
        rule.source = rule.node.expr.text ∧ Expr.Overruns rule.source tokens) := by
  obtain ⟨nodes, -, he⟩ := h.sound
  obtain ⟨-, hdefect, hsource⟩ := he id rule (find_eq_ok hrule)
  obtain ⟨hdepth, hleaves⟩ := (Expr.defect?_eq_none_iff _).mp hdefect
  rcases hsource with hparse | htext
  · obtain ⟨tokens, hs, -, hn, -⟩ := Expr.parse_eq_ok_iff.mp hparse
    refine ⟨tokens, hs, ⟨fun _ => hn, fun _ => hparse⟩, fun hlt => ?_⟩
    omega
  · obtain ⟨tokens, hs, hd, -⟩ := Expr.scan_text hleaves
    rw [← htext] at hs
    refine ⟨tokens, hs, ?_, fun hlt => ⟨htext, Expr.overruns_of_scan hs hd hlt hdepth⟩⟩
    rw [Expr.parse_eq_ok_iff_of_scan hs]
    exact ⟨fun hok => hok.2.1, fun hn => ⟨hd, hn, hdepth⟩⟩

/-- A kept text that cannot be read, and why. -/
theorem parse_source_iff_overloading : ∃ rule tokens, (after {} overloading).1.find 3 = .ok rule ∧
    Token.scan rule.source = .ok tokens ∧
    (Expr.parse rule.source = .ok rule.node.expr ↔ Token.nesting tokens ≤ Expr.maxNesting) ∧
    Expr.maxNesting < Token.nesting tokens ∧ Expr.Overruns rule.source tokens := by
  obtain ⟨node, hnesting, hfind⟩ := find_after_overloading
  have hreach := reachable_after {} overloading
  obtain ⟨nodes, -, he⟩ := hreach.sound
  have hdefect := (he 3 _ (find_eq_ok hfind)).defect
  obtain ⟨tokens, hs, -, hn⟩ := Expr.scan_text ((Expr.defect?_eq_none_iff _).mp hdefect).2
  obtain ⟨tokens', hs', hiff, hover⟩ := parse_source_iff hreach hfind
  cases hs.symm.trans hs'
  have hlt : Expr.maxNesting < Token.nesting tokens := by
    rw [hn, hnesting]
    decide
  exact ⟨_, tokens, hfind, hs, hiff, hlt, (hover hlt).2⟩

/-- Not every text that is kept after some calls can be read as the expression of its rule. -/
theorem not_forall_parse_source : ¬ ∀ settings requests id rule,
    (after settings requests).1.find id = .ok rule →
      Expr.parse rule.source = .ok rule.node.expr := by
  intro hall
  obtain ⟨node, hnesting, hfind⟩ := find_after_overloading
  have hparse := hall {} overloading 3 _ hfind
  obtain ⟨tokens, hs, -, hn⟩ :=
    Expr.scan_text ((Expr.defect?_eq_none_iff _).mp (Expr.defect?_of_parse hparse)).2
  obtain ⟨-, hle, -⟩ := (Expr.parse_eq_ok_iff_of_scan hs).mp hparse
  rw [hn, hnesting] at hle
  exact absurd hle (by decide)

end Engine
end Criteria
