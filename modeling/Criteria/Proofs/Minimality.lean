import Criteria.Proofs.Canonical

/-! Canonical text is minimal. All lists of tokens that are read as one expression have the same
tokens but for parentheses, and those of the canonical text are among the parentheses of each. -/
namespace Criteria

namespace Token.Kind

def isParenthesis : Token.Kind → Bool
  | opening | closing => true
  | _ => false

variable (p : ℕ) (ks : List Token.Kind)

theorem grouped_sublist {q q' : ℕ} (h : q ≤ q') :
    List.Sublist (grouped p q ks) (grouped p q' ks) := by
  by_cases hq : p < q
  · simp only [grouped, if_pos hq, if_pos (hq.trans_le h)]
    exact List.Sublist.refl _
  · simp only [grouped, if_neg hq]
    split
    · exact (List.sublist_append_left ks _).cons _
    · exact List.Sublist.refl _

theorem sublist_grouped (q : ℕ) : List.Sublist ks (grouped p q ks) := by
  simpa [grouped] using grouped_sublist p ks q.zero_le

theorem grouped_sublist_cons (q : ℕ) :
    List.Sublist (grouped p q ks) (opening :: (ks ++ [closing])) := by
  have h := grouped_sublist p ks (le_max_left q (p + 1))
  rwa [grouped.eq_def p (max q (p + 1)), if_pos (by omega)] at h

@[simp] theorem filter_grouped (q : ℕ) :
    (grouped p q ks).filter (!·.isParenthesis) = ks.filter (!·.isParenthesis) := by
  rw [grouped]
  split
  · simp [isParenthesis]
  · rfl

end Token.Kind

namespace Expr

@[simp] theorem precedence_leaf (c : Comparison) : (leaf c).precedence = 4 := rfl

@[simp] theorem precedence_or (l r : Expr) : (join .or l r).precedence = 1 := rfl

@[simp] theorem precedence_and (l r : Expr) : (join .and l r).precedence = 2 := rfl

@[simp] theorem precedence_not (e : Expr) : (not e).precedence = 3 := rfl

theorem nesting_join_le_iff {o : Connective} {l r : Expr} {n : ℕ} : (join o l r).nesting ≤ n ↔
    (l.nesting ≤ n ∧ (l.precedence < (join o l r).precedence → l.nesting < n)) ∧
      r.nesting ≤ n ∧ (r.precedence ≤ (join o l r).precedence → r.nesting < n) := by
  rw [nesting, Nat.max_le]
  split <;> split <;> omega

theorem nesting_not_le_iff {e : Expr} {n : ℕ} :
    (not e).nesting ≤ n ↔ e.nesting ≤ n ∧ (e.precedence ≤ 3 → e.nesting < n) := by
  rw [nesting]
  split <;> omega

/-- The least precedence of an expression that a level derives without parentheses around it. -/
def Level.precedence : Level → ℕ
  | disjunction => 1
  | conjunction => 2
  | negation => 3
  | atom => 4

namespace Derives

variable {level : Level} {ts : List Token} {e : Expr}

/-- Where an expression binds more loosely than the level, its tokens are in parentheses. -/
theorem kinds_sublist (h : Derives level ts e) :
    List.Sublist (Token.Kind.grouped e.precedence level.precedence e.kinds)
      (ts.map Token.kind) := by
  induction h with
  | single _ ih | factor _ ih | plain _ ih =>
    exact (Token.Kind.grouped_sublist _ _ (by decide)).trans ih
  | or left ht right ihl ihr | and left ht right ihl ihr =>
    rw [List.map_append, List.map_cons, ht]
    exact ihl.append (ihr.cons_cons _)
  | not ht h ih =>
    rw [List.map_cons, ht]
    exact ih.cons_cons _
  | comparison hn ho hv =>
    rw [List.map_cons, List.map_cons, List.map_cons, hn, ho, hv]
    exact List.Sublist.refl _
  | @parenthesised ts e o c ho h hc ih =>
    have hkinds : List.Sublist e.kinds (ts.map Token.kind) :=
      (Token.Kind.sublist_grouped ..).trans ih
    have hall := (hkinds.append_right [.closing]).cons_cons Token.Kind.opening
    simpa [ho, hc] using (Token.Kind.grouped_sublist_cons ..).trans hall

/-- The other tokens are those of the expression. -/
theorem filter_kinds (h : Derives level ts e) :
    (ts.map Token.kind).filter (!·.isParenthesis) = e.kinds.filter (!·.isParenthesis) := by
  induction h with
  | single _ ih | factor _ ih | plain _ ih => exact ih
  | or _ ht _ ihl ihr | and _ ht _ ihl ihr =>
    simp only [List.map_append, List.map_cons, List.filter_append, List.filter_cons, ht, ihl, ihr,
      kinds, Token.Kind.filter_grouped]
  | not ht _ ih =>
    simp only [List.map_cons, List.filter_cons, ht, ih, kinds, Token.Kind.filter_grouped]
  | comparison hn ho hv => simp [kinds, hn, ho, hv]
  | parenthesised ho _ hc ih => simpa [ho, hc, Token.Kind.isParenthesis] using ih

/-- A derivation is nested at least as deep as the canonical text, and deeper where that needs
parentheses around it. -/
theorem nesting_le (h : Derives level ts e) : e.nesting ≤ Token.nesting ts ∧
    (e.precedence < level.precedence → e.nesting < Token.nesting ts) := by
  induction h with
  | single _ ih | factor _ ih | plain _ ih =>
    simp only [Level.precedence] at ih ⊢
    omega
  | or left ht right ihl ihr | and left ht right ihl ihr =>
    rw [Token.nesting_append _ left.balanced, Token.nesting_cons_flat (by simp [ht]) (by simp [ht])]
    refine ⟨nesting_join_le_iff.mpr ?_, by simp [Level.precedence]⟩
    simp only [precedence_or, precedence_and, Level.precedence] at ihl ihr ⊢
    omega
  | not ht h ih =>
    rw [Token.nesting_cons_flat (by simp [ht]) (by simp [ht])]
    refine ⟨nesting_not_le_iff.mpr ?_, by simp [Level.precedence]⟩
    simp only [Level.precedence] at ih
    omega
  | comparison hn ho hv => simp [nesting, Level.precedence]
  | parenthesised ho h hc ih =>
    rw [Token.nesting_parenthesised ho hc h.balanced]
    omega

end Derives

/-- The canonical text of what is read has no more tokens than any spelling of it and nests its
parentheses no deeper, so it is read again. Every list of tokens that is read as the same expression
has its parentheses, at the same places among its other tokens, and more at most. -/
theorem canonical_minimal {s : String} {e : Expr} (h : parse s = .ok e) :
    ∃ source tokens, Token.scan s = .ok source ∧ Token.scan e.text = .ok tokens ∧
      tokens.length ≤ source.length ∧ Token.nesting tokens ≤ Token.nesting source ∧
      parse e.text = .ok e ∧
      ∀ us, ofTokens us = .ok e →
        List.Sublist (tokens.map Token.kind) (us.map Token.kind) ∧
        (tokens.map Token.kind).filter (!·.isParenthesis) =
          (us.map Token.kind).filter (!·.isParenthesis) ∧
        Token.nesting tokens ≤ Token.nesting us := by
  obtain ⟨source, hsource, hderives, hnesting, hdepth⟩ := parse_eq_ok_iff.mp h
  have hdefect := defect?_of_parse h
  obtain ⟨tokens, htokens, hcanonical, hkinds, hdeep⟩ :=
    scan_text_kinds ((defect?_eq_none_iff e).mp hdefect).2
  have hminimal {us : List Token} (hus : Derives .disjunction us e) :
      List.Sublist (tokens.map Token.kind) (us.map Token.kind) ∧
        Token.nesting tokens ≤ Token.nesting us := by
    rw [hkinds, hdeep]
    exact ⟨(Token.Kind.sublist_grouped ..).trans hus.kinds_sublist,
      hus.nesting_le.1⟩
  obtain ⟨hsublist, hle⟩ := hminimal hderives
  refine ⟨source, tokens, hsource, htokens, by simpa using hsublist.length_le, hle, ?_, ?_⟩
  · exact parse_text_of_nesting_le hdefect (hdeep ▸ hle.trans hnesting)
  · intro us hus
    obtain ⟨hus, -, -⟩ := (Reader.read_eq_ok_iff ⟨maxNesting, maxDepth⟩ (by decide)).mp hus
    refine ⟨(hminimal hus).1, ?_, (hminimal hus).2⟩
    rw [hcanonical.filter_kinds, hus.filter_kinds]

/-- A text with parentheses that are not needed, and what is left without them. -/
theorem canonical_minimal_redundant :
    let s := "((a = true)) AND NOT ((b = false))"
    let e : Expr := .join .and (.leaf ⟨"a", .equal, .boolean true⟩)
      (.not (.leaf ⟨"b", .equal, .boolean false⟩))
    parse s = .ok e ∧ e.text = "a = true AND NOT b = false" ∧
    ∃ source tokens, Token.scan s = .ok source ∧ Token.scan e.text = .ok tokens ∧
      tokens.length ≤ source.length ∧ Token.nesting tokens ≤ Token.nesting source ∧
      parse e.text = .ok e ∧
      List.Sublist (tokens.map Token.kind) (source.map Token.kind) := by
  intro s e
  have hparse : parse s = .ok e := by decide +kernel
  obtain ⟨source, tokens, hs, ht, hlength, hnesting, hagain, hall⟩ := canonical_minimal hparse
  have hsource : ofTokens source = .ok e :=
    (Reader.read_eq_ok_iff ⟨maxNesting, maxDepth⟩ (by decide)).mpr
      ((parse_eq_ok_iff_of_scan hs).mp hparse)
  exact ⟨hparse, by decide +kernel, source, tokens, hs, ht, hlength, hnesting, hagain,
    (hall source hsource).1⟩

end Expr
end Criteria
