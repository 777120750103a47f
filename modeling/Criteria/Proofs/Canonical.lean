import Criteria.Expr.Printer
import Criteria.Proofs.Reading.Text

/-! The canonical text of an expression is scanned into tokens that the grammar derives as that
expression, so it is read back unless it nests too many parentheses. -/
namespace Criteria

/-- The tokens of an operand, in parentheses if it binds more loosely than its place asks for. -/
def Token.Kind.grouped (precedence least : ℕ) (kinds : List Token.Kind) : List Token.Kind :=
  if precedence < least then .opening :: (kinds ++ [.closing]) else kinds

namespace Expr

/-- How deep the canonical text nests its parentheses. -/
def nesting : Expr → ℕ
  | leaf _ => 0
  | join o l r =>
    max (l.nesting + if l.precedence < (join o l r).precedence then 1 else 0)
      (r.nesting + if r.precedence ≤ (join o l r).precedence then 1 else 0)
  | not e => e.nesting + if e.precedence ≤ 3 then 1 else 0

/-- The tokens of the canonical text, apart from their places. -/
def kinds : Expr → List Token.Kind
  | leaf c => [.identifier c.name, .comparison c.operator, .literal c.value]
  | join o l r =>
    Token.Kind.grouped l.precedence (join o l r).precedence l.kinds ++ .connective o ::
      Token.Kind.grouped r.precedence ((join o l r).precedence + 1) r.kinds
  | not e => .not :: Token.Kind.grouped e.precedence 4 e.kinds

/-- A comparison joined with itself to the right, time after time. Every join but the innermost puts
parentheses around its right operand. -/
def ladder (c : Comparison) : ℕ → Expr
  | 0 => leaf c
  | n + 1 => join .and (leaf c) (ladder c n)

theorem nesting_ladder (c : Comparison) (n : ℕ) : (ladder c (n + 1)).nesting = n := by
  induction n with
  | zero => rfl
  | succ n ih =>
    have hp : (ladder c (n + 1)).precedence = 2 := rfl
    rw [ladder, nesting, ih, hp]
    simp [nesting, precedence]

theorem depth_ladder (c : Comparison) (n : ℕ) : (ladder c n).depth = n + 1 := by
  induction n with
  | zero => simp [ladder]
  | succ n ih => simp [ladder, ih]

theorem defect?_ladder {c : Comparison} (hc : c.defect? = none) {n : ℕ} (hn : n < maxDepth) :
    (ladder c n).defect? = none := by
  have hleaves : ∀ d ∈ (ladder c n).leaves, d = c := by
    clear hn
    induction n with
    | zero => simp [ladder, leaves]
    | succ n ih => simpa [ladder, leaves] using ih
  refine (defect?_eq_none_iff _).mpr ⟨depth_ladder c n ▸ hn, fun d hd => ?_⟩
  rw [hleaves d hd, hc]

/-- The level whose derivations bind at least as tightly as a precedence. -/
def Level.ofPrecedence : ℕ → Level
  | 0 | 1 => .disjunction
  | 2 => .conjunction
  | 3 => .negation
  | _ => .atom

/-- Characters that split into a derivation of `e` with the tokens `ks`, nested to the depth `n`,
wherever they stand. -/
def Written (level : Level) (chars : List Char) (e : Expr) (ks : List Token.Kind) (n : ℕ) : Prop :=
  ∀ p rest, Token.Boundary rest → ∃ tokens q, Token.Splits p (chars ++ rest) tokens q rest ∧
    Derives level tokens e ∧ tokens.map Token.kind = ks ∧ Token.nesting tokens = n

theorem Derives.weaken {p q : ℕ} {ts : List Token} {e : Expr} (hq : q ≤ p)
    (h : Derives (.ofPrecedence p) ts e) : Derives (.ofPrecedence q) ts e := by
  induction hq with
  | refl => exact h
  | @step p _ ih =>
    apply ih
    match p with
    | 0 => exact h
    | 1 => exact .single h
    | 2 => exact .factor h
    | 3 => exact .plain h
    | _ + 4 => exact h

namespace Written

variable {level : Level} {chars cs ds : List Char} {e l r : Expr} {ks js : List Token.Kind}
  {n m : ℕ}

theorem weaken {p q : ℕ} (hq : q ≤ p) (h : Written (.ofPrecedence p) chars e ks n) :
    Written (.ofPrecedence q) chars e ks n := by
  intro place rest hr
  obtain ⟨tokens, stop, hs, hd, hn⟩ := h place rest hr
  exact ⟨tokens, stop, hs, hd.weaken hq, hn⟩

theorem comparison {c : Comparison} (hc : c.defect? = none) :
    Written .atom (leaf c).text.toList (leaf c) (leaf c).kinds 0 := by
  intro p rest hr
  obtain ⟨hname, hvalue⟩ := c.defect?_eq_none_iff.mp hc
  have hn := (Token.spells_name hname (.space (c.operator.symbol.toList ++ ' ' ::
    (c.value.text.toList ++ rest)))).splits p
  have ho := (Token.spells_operator c.operator (.space (c.value.text.toList ++ rest))).splits
    (p + c.name.toList.length + 1)
  have hv := (Token.spells_scalar hvalue hr).splits
    (p + c.name.toList.length + 1 + c.operator.symbol.toList.length + 1)
  have h := hn.append (.blank (by decide) (ho.append (.blank (by decide) hv)))
  have htext : (leaf c).text.toList ++ rest = c.name.toList ++ ' ' :: (c.operator.symbol.toList ++
      ' ' :: (c.value.text.toList ++ rest)) := by simp [text]
  rw [htext]
  exact ⟨_, _, h, .comparison rfl rfl rfl, rfl, Token.nesting_of_flat (by simp)⟩

theorem parenthesised (h : Written .disjunction chars e ks n) :
    Written .atom ('(' :: (chars ++ [')'])) e (.opening :: (ks ++ [.closing])) (n + 1) := by
  intro p rest hr
  obtain ⟨tokens, q, hs, hd, rfl, hn⟩ := h (p + 1) (')' :: rest) (.closing rest)
  have ho := (Token.spells_opening (chars ++ ')' :: rest)).splits p
  have hc := (Token.spells_closing rest).splits q
  have h := ho.append (hs.append hc)
  rw [List.cons_append, List.append_assoc]
  refine ⟨_, _, h, .parenthesised rfl hd rfl, by simp, ?_⟩
  rw [List.singleton_append, Token.nesting_parenthesised rfl rfl hd.balanced, hn]

theorem negated (h : Written .atom chars e ks n) :
    Written .negation ('N' :: 'O' :: 'T' :: ' ' :: chars) (not e) (.not :: ks) n := by
  intro p rest hr
  obtain ⟨tokens, q, hs, hd, rfl, hn⟩ := h (p + 4) rest hr
  have ht := (Token.spells_not (.space (chars ++ rest))).splits p
  have h := ht.append (.blank (by decide) hs)
  refine ⟨_, _, h, .not rfl hd, by simp, ?_⟩
  rw [List.singleton_append, Token.nesting_cons_flat (by simp) (by simp), hn]

theorem joined (o : Connective)
    (hl : Written (.ofPrecedence (join o l r).precedence) cs l ks n)
    (hr : Written (.ofPrecedence ((join o l r).precedence + 1)) ds r js m) :
    Written (.ofPrecedence (join o l r).precedence)
      (cs ++ ' ' :: (o.word.toList ++ ' ' :: ds)) (join o l r) (ks ++ .connective o :: js)
      (max n m) := by
  intro p rest hrest
  obtain ⟨ts, q, hts, hdl, rfl, rfl⟩ := hl p _ (.space (o.word.toList ++ ' ' :: (ds ++ rest)))
  have ho := (Token.spells_connective o (.space (ds ++ rest))).splits (q + 1)
  obtain ⟨us, q', hus, hdr, rfl, rfl⟩ := hr (q + 1 + o.word.toList.length + 1) rest hrest
  have h := hts.append (.blank (by decide) (ho.append (.blank (by decide) hus)))
  have htext : cs ++ ' ' :: (o.word.toList ++ ' ' :: ds) ++ rest =
      cs ++ ' ' :: (o.word.toList ++ ' ' :: (ds ++ rest)) := by simp
  rw [htext]
  refine ⟨_, q', h, ?_, by simp, ?_⟩
  · cases o with
    | and => exact .and hdl rfl hdr
    | or => exact .or hdl rfl hdr
  · rw [List.singleton_append, Token.nesting_append _ hdl.balanced,
      Token.nesting_cons_flat (by simp) (by simp)]

/-- An operand gets its parentheses exactly where its level would not do. -/
theorem operand {q : ℕ} (hq : q ≤ 4)
    (h : Written (.ofPrecedence e.precedence) e.text.toList e e.kinds e.nesting) :
    Written (.ofPrecedence q) (grouped (e.precedence < q) e.text).toList e
      (Token.Kind.grouped e.precedence q e.kinds)
      (e.nesting + if e.precedence < q then 1 else 0) := by
  by_cases hlt : e.precedence < q
  · have hweak : Written .disjunction e.text.toList e e.kinds e.nesting :=
      h.weaken (q := 0) (Nat.zero_le _)
    have hp : Written (.ofPrecedence 4) ('(' :: (e.text.toList ++ [')'])) e
        (.opening :: (e.kinds ++ [.closing])) (e.nesting + 1) := hweak.parenthesised
    simpa [grouped, Token.Kind.grouped, hlt] using hp.weaken hq
  · simpa [grouped, Token.Kind.grouped, hlt] using h.weaken (Nat.not_lt.mp hlt)

end Written

/-- The canonical text of an expression is written at the level of its outermost operator. -/
theorem written_text (e : Expr) (h : ∀ c ∈ e.leaves, c.defect? = none) :
    Written (.ofPrecedence e.precedence) e.text.toList e e.kinds e.nesting := by
  induction e with
  | leaf c => exact .comparison (h c (by simp [leaves]))
  | join o l r ihl ihr =>
    rw [leaves, List.forall_mem_append] at h
    have hp : (join o l r).precedence ≤ 2 := by cases o <;> simp [precedence]
    have hl := (ihl h.1).operand (q := (join o l r).precedence) (by omega)
    have hr := (ihr h.2).operand (q := (join o l r).precedence + 1) (by omega)
    have hj := Written.joined o hl hr
    simpa [text, kinds, nesting, Nat.lt_succ_iff] using hj
  | not e ih =>
    have he := (ih h).operand (q := 4) le_rfl
    have hn := Written.negated he
    have hlevel : Level.ofPrecedence (not e).precedence = .negation := rfl
    rw [hlevel]
    simpa [text, kinds, nesting, Nat.lt_succ_iff] using hn

/-- The tokens of a canonical text are a derivation of the expression. -/
theorem scan_text_kinds {e : Expr} (h : ∀ c ∈ e.leaves, c.defect? = none) : ∃ tokens,
    Token.scan e.text = .ok tokens ∧ Derives .disjunction tokens e ∧
      tokens.map Token.kind = e.kinds ∧ Token.nesting tokens = e.nesting := by
  have hw : Written .disjunction e.text.toList e e.kinds e.nesting :=
    (written_text e h).weaken (q := 0) (Nat.zero_le _)
  obtain ⟨tokens, q, hs, hd, hk, hn⟩ := hw 0 [] .nil
  rw [List.append_nil] at hs
  exact ⟨tokens, hs.scanFrom_eq_ok, hd, hk, hn⟩

theorem scan_text {e : Expr} (h : ∀ c ∈ e.leaves, c.defect? = none) : ∃ tokens,
    Token.scan e.text = .ok tokens ∧ Derives .disjunction tokens e ∧
      Token.nesting tokens = e.nesting := by
  obtain ⟨tokens, hs, hd, -, hn⟩ := scan_text_kinds h
  exact ⟨tokens, hs, hd, hn⟩

theorem parse_text_of_nesting_le {e : Expr} (he : e.defect? = none) (hn : e.nesting ≤ maxNesting) :
    parse e.text = .ok e := by
  obtain ⟨hdepth, hleaves⟩ := e.defect?_eq_none_iff.mp he
  obtain ⟨tokens, hs, hd, htokens⟩ := scan_text hleaves
  exact (parse_eq_ok_iff_of_scan hs).mpr ⟨hd, htokens ▸ hn, hdepth⟩

theorem parse_text_leaf {c : Comparison} (hc : c.defect? = none) :
    parse (leaf c).text = .ok (leaf c) :=
  parse_text_of_nesting_le (defect?_ladder hc (n := 0) (by decide)) (Nat.zero_le _)

/-- The canonical text of an expression without defects is read back as that very expression, if it
nests its parentheses within the limit. Otherwise reading stops at the first parenthesis that goes
beyond the limit. -/
theorem parse_text (e : Expr) (he : e.defect? = none) : ∃ tokens,
    Token.scan e.text = .ok tokens ∧ Token.nesting tokens = e.nesting ∧
      (e.nesting ≤ maxNesting → parse e.text = .ok e) ∧
      (maxNesting < e.nesting → Overruns e.text tokens) := by
  obtain ⟨hdepth, hleaves⟩ := e.defect?_eq_none_iff.mp he
  obtain ⟨tokens, hs, hd, hn⟩ := scan_text hleaves
  refine ⟨tokens, hs, hn, parse_text_of_nesting_le he, fun hlt => ?_⟩
  exact overruns_of_scan hs hd (hn ▸ hlt) hdepth

/-- The ladders of a comparison with a negative zero, one within the limit and one beyond it. -/
theorem parse_text_ladder :
    let c : Comparison := ⟨"a_1", .lessEqual, .number ⟨0x8000000000000000⟩⟩
    (ladder c 257).defect? = none ∧ (ladder c 258).defect? = none ∧
      parse (ladder c 257).text = .ok (ladder c 257) ∧
      ∃ tokens, Overruns (ladder c 258).text tokens := by
  intro c
  have hc : c.defect? = none := c.defect?_eq_none_iff.mpr ⟨by decide, by decide⟩
  have hwithin : (ladder c 257).defect? = none := defect?_ladder hc (by decide)
  have hbeyond : (ladder c 258).defect? = none := defect?_ladder hc (by decide)
  obtain ⟨_, -, -, hok, -⟩ := parse_text (ladder c 257) hwithin
  obtain ⟨tokens, -, -, -, herror⟩ := parse_text (ladder c 258) hbeyond
  refine ⟨hwithin, hbeyond, hok ?_, tokens, herror ?_⟩
  · rw [nesting_ladder]
    decide
  · rw [nesting_ladder]
    decide

end Expr
end Criteria
