import Criteria.Proofs.Reading.Correspondence
import Criteria.Proofs.Scanning.Lossless
import Criteria.Proofs.Trimming

/-! The layout of rule text. Which blanks stand around the tokens, and in which letters the keywords
are written, makes no difference to what is read. -/
namespace Criteria

namespace Text

variable {text other : String} {k : Keyword}

lemma isAlpha_of_isUpper_toUpper {c : Char} (h : c.toUpper.isUpper = true) : c.isAlpha = true := by
  unfold Char.toUpper at h
  split at h
  · rename_i hlower
    have hc : c.isLower = true :=
      Bool.and_eq_true_iff.mpr ⟨decide_eq_true hlower.1, decide_eq_true hlower.2⟩
    exact Bool.or_eq_true_iff.mpr (.inr hc)
  · exact Bool.or_eq_true_iff.mpr (.inl h)

lemma keyword?_congr (h : capitals other = capitals text) : keyword? other = keyword? text := by
  simp only [keyword?, h]

lemma isUpper_of_keyword? (h : keyword? text = some k) :
    capitals text ≠ "" ∧ ∀ c ∈ (capitals text).toList, c.isUpper = true := by
  unfold keyword? at h
  split at h
  case h_6 => cases h
  all_goals
    rename_i heq
    rw [heq]
    exact ⟨by decide, List.all_eq_true.mp (by decide +kernel)⟩

/-- A keyword is a word. -/
theorem exists_cons_of_keyword? (h : keyword? text = some k) : ∃ c cs, text.toList = c :: cs ∧
    isWordStart c = true ∧ ∀ d ∈ cs, isWordChar d = true := by
  obtain ⟨hne, hupper⟩ := isUpper_of_keyword? h
  simp only [capitals, String.toList_ofList, List.forall_mem_map] at hne hupper
  have halpha (c : Char) (hc : c ∈ text.toList) : c.isAlpha = true :=
    isAlpha_of_isUpper_toUpper (hupper c hc)
  cases hchars : text.toList with
  | nil => simp [hchars] at hne
  | cons c cs =>
    rw [hchars, List.forall_mem_cons] at halpha
    refine ⟨c, cs, rfl, ?_, fun d hd => ?_⟩
    · rw [isWordStart, halpha.1, Bool.true_or]
    · rw [isWordChar, Char.isAlphanum, halpha.2 d hd, Bool.true_or, Bool.true_or]

end Text

namespace Token

/-- The text of the token itself, or for a keyword the same word in any mix of small letters and
capitals. -/
def Respelled (t : Token) (text : String) : Prop :=
  text = t.text ∨
    (Text.keyword? t.text).isSome = true ∧ Text.capitals text = Text.capitals t.text

/-- Characters that are the tokens in another layout: each token in a spelling of its own, with
blanks before and behind them and at least one between any two. -/
inductive Relaid : List Token → List Char → Prop
  | nil {blanks} (hblanks : Text.Blanks blanks) : Relaid [] blanks
  | cons {t ts blanks text rest} (hblanks : Text.Blanks blanks) (htext : t.Respelled text)
      (hrest : Relaid ts rest) (hbetween : ∀ c ∈ rest.head?, Text.isBlank c = true) :
      Relaid (t :: ts) (blanks ++ (text.toList ++ rest))

variable {p : ℕ} {chars cs rest : List Char} {kind : Kind} {t : Token} {ts us : List Token}
  {text : String}

/-- A token that is spelled alone is spelled before a blank. -/
theorem Spells.extend (h : Spells chars kind []) (hr : Apart rest) : Spells chars kind rest := by
  obtain ⟨c, cs, rfl, hc, hl⟩ := h
  rw [List.append_nil] at hl
  exact ⟨c, cs, rfl, hc, (lexeme_extend hr.severs (by simp [hl])).trans hl⟩

theorem Spells.kind_unique {kind' : Kind} (h : Spells chars kind rest)
    (h' : Spells chars kind' rest) : kind = kind' := by
  obtain ⟨c, cs, rfl, -, hl⟩ := h
  obtain ⟨_, _, heq, -, hl'⟩ := h'
  cases heq
  rw [hl] at hl'
  cases hl'
  rfl

theorem spells_keyword {k : Text.Keyword} (h : Text.keyword? text = some k) :
    Spells text.toList (word text) [] := by
  obtain ⟨c, cs, hchars, hc, hcs⟩ := Text.exists_cons_of_keyword? h
  have hspells := spells_word hc hcs .nil
  rwa [← hchars, String.ofList_toList] at hspells

/-- Each spelling of a token is read as that token. -/
theorem Respelled.spells (h : t.Respelled text) (ht : Spells t.text.toList t.kind []) :
    Spells text.toList t.kind [] := by
  rcases h with rfl | ⟨hkeyword, hcapitals⟩
  · exact ht
  · obtain ⟨k, hk⟩ := Option.isSome_iff_exists.mp hkeyword
    have hk' : Text.keyword? text = some k := (Text.keyword?_congr hcapitals).trans hk
    have hword : word text = word t.text := by
      simp only [word, hk, hk']
      cases k <;> rfl
    rw [ht.kind_unique (spells_keyword hk), ← hword]
    exact spells_keyword hk'

theorem splits_of_blanks (h : Text.Blanks chars) (p : ℕ) (rest : List Char) :
    Splits p (chars ++ rest) [] (p + chars.length) rest := by
  induction chars generalizing p with
  | nil => exact .done
  | cons c chars ih =>
    obtain ⟨hc, h⟩ := List.forall_mem_cons.mp h
    have hnext := ih h (p + 1)
    rw [Nat.add_right_comm, Nat.add_assoc] at hnext
    exact .blank hc hnext

/-- Another layout splits into tokens of the same kinds. A spelling need not be a token where more
follows, but before a blank it is. -/
theorem Relaid.exists_splits (h : Relaid ts cs)
    (hts : ∀ t ∈ ts, Spells t.text.toList t.kind []) (p : ℕ) : ∃ us q, Splits p cs us q [] ∧
      List.Forall₂ (fun t u => t.kind = u.kind) ts us := by
  induction h generalizing p with
  | @nil blanks hblanks =>
    have hsplits := splits_of_blanks hblanks p []
    rw [List.append_nil] at hsplits
    exact ⟨[], _, hsplits, .nil⟩
  | @cons t ts blanks text rest hblanks htext _ hbetween ih =>
    obtain ⟨ht, hts⟩ := List.forall_mem_cons.mp hts
    have hapart : Apart rest := fun c hc => .inl (hbetween c hc)
    have hbefore := splits_of_blanks hblanks p (text.toList ++ rest)
    have hword := ((htext.spells ht).extend hapart).splits (p + blanks.length)
    obtain ⟨us, q, hsplits, hkinds⟩ := ih hts (p + blanks.length + text.toList.length)
    exact ⟨_, q, hbefore.append (hword.append hsplits), .cons rfl hkinds⟩

end Token

/-- The error is about the token at an index of the list, or about the end of the list. -/
structure ParseError.StandsAt (ts : List Token) (k : ℕ) (error : ParseError) : Prop where
  index_le : k ≤ ts.length
  found : error.found = ts[k]?
  position : error.position = (ts[k]?.map Token.position).getD (Token.lastStop ts)

variable {ts us : List Token}

lemma forall₂_getElem? {R : Token → Token → Prop} (h : List.Forall₂ R ts us) :
    List.Forall₂ (fun t u => R t u ∧ ∃ k : ℕ, ts[k]? = some t ∧ us[k]? = some u) ts us := by
  rw [List.forall₂_iff_get] at h ⊢
  exact ⟨h.1, fun i hi hi' => ⟨h.2 i hi hi', i, by simp, by simp⟩⟩

/-- Lists of tokens of the same kinds are read alike: as one expression, or with one expectation
that fails at one index. -/
theorem Expr.ofTokens_of_kinds (h : List.Forall₂ (fun t u => t.kind = u.kind) ts us) :
    Paired (fun error error' => error.expected = error'.expected ∧
      ∃ k, error.StandsAt ts k ∧ error'.StandsAt us k) Eq (ofTokens ts) (ofTokens us) := by
  have hread := Reader.paired_read ⟨maxNesting, maxDepth⟩ (fun t u h => h.1)
    (forall₂_getElem? h)
  have hlength := h.length_eq
  unfold ofTokens
  generalize Reader.read ⟨maxNesting, maxDepth⟩ ts = x,
    Reader.read ⟨maxNesting, maxDepth⟩ us = y at hread ⊢
  cases hread with
  | ok he => exact .ok he
  | error herror =>
    cases herror with
    | token ht =>
      obtain ⟨-, k, hk, hk'⟩ := ht
      have hlt := (List.getElem?_eq_some_iff.mp hk).1
      refine .error ⟨rfl, k, ⟨hlt.le, hk.symm, ?_⟩, ⟨hlength ▸ hlt.le, hk'.symm, ?_⟩⟩
      · rw [hk]
        rfl
      · rw [hk']
        rfl
    | ending =>
      refine .error ⟨rfl, ts.length, ⟨le_rfl, by simp, by simp⟩, ⟨hlength.le, ?_, ?_⟩⟩
      · simp [hlength]
      · simp [hlength]

/-- Blanks between the tokens and the case of keywords do not matter. A text in another layout is
read as the same expression, or it is refused at the token of the same index, where the same is
expected. -/
theorem Expr.parse_relaid {text other : String} (hscan : Token.scan text = .ok ts)
    (h : Token.Relaid ts other.toList) : ∃ us, Token.scan other = .ok us ∧
      us.map Token.kind = ts.map Token.kind ∧
      (∀ e, parse text = .ok e → parse other = .ok e) ∧
      ∀ failure, parse text = .error failure → ∃ k error error',
        failure = .grammatical error ∧ parse other = .error (.grammatical error') ∧
        error.StandsAt ts k ∧ error'.StandsAt us k ∧ error'.expected = error.expected := by
  obtain ⟨q, hsplits⟩ := Token.splits_of_scanFrom hscan
  have halone (t : Token) (ht : t ∈ ts) : Token.Spells t.text.toList t.kind [] := by
    obtain ⟨_, rest, -, -, hspells⟩ := hsplits.stands ht
    rw [← List.nil_append rest] at hspells
    exact hspells.cut
  obtain ⟨us, q', hother, hkinds⟩ := h.exists_splits halone 0
  have hscan' : Token.scan other = .ok us := hother.scanFrom_eq_ok
  have hread := ofTokens_of_kinds hkinds
  refine ⟨us, hscan', ?_, ?_⟩
  · clear hread hscan hscan' hother h hsplits halone
    induction hkinds with
    | nil => rfl
    | cons hkind _ ih => rw [List.map_cons, List.map_cons, ih, hkind]
  · simp only [parse, hscan, hscan']
    generalize ofTokens ts = x, ofTokens us = y at hread ⊢
    cases hread with
    | ok he => exact ⟨by simp [he], by simp⟩
    | @error error error' herror =>
      obtain ⟨hexpected, k, hk, hk'⟩ := herror
      refine ⟨by simp, ?_⟩
      rintro _ ⟨⟩
      exact ⟨k, error, error', rfl, rfl, hk, hk', hexpected.symm⟩

/-- A rule whose tokens touch and the same in wide spaces and other letters, and a text that ends
where an operator should be. -/
theorem Expr.parse_relaid_shouted :
    let negation : Token := ⟨.not, "not", 0⟩
    let name : Token := ⟨.identifier "a", "a", 4⟩
    let operator : Token := ⟨.comparison .equal, "=", 5⟩
    let literal : Token := ⟨.literal (.boolean true), "true", 6⟩
    let rule : Expr := .not (.leaf ⟨"a", .equal, .boolean true⟩)
    (Token.scan "not a=true" = .ok [negation, name, operator, literal] ∧
      Token.Relaid [negation, name, operator, literal] "\tNoT\u2003a = TRUE".toList ∧
      parse "not a=true" = .ok rule ∧ parse "\tNoT\u2003a = TRUE" = .ok rule) ∧
    ∃ k error error', Token.scan "not a" = .ok [negation, name] ∧
      Token.Relaid [negation, name] "nOT\na ".toList ∧
      parse "not a" = .error (.grammatical error) ∧
      parse "nOT\na " = .error (.grammatical error') ∧
      error.StandsAt [negation, name] k ∧ error'.expected = error.expected := by
  intro negation name operator literal rule
  have hscan : Token.scan "not a=true" = .ok [negation, name, operator, literal] := by
    decide +kernel
  have hspace : Text.isBlank ' ' = true := by decide +kernel
  have hline : Text.isBlank '\n' = true := by decide +kernel
  have hwide : Text.isBlank '\u2003' = true := by decide +kernel
  have hrelaid : Token.Relaid [negation, name, operator, literal]
      "\tNoT\u2003a = TRUE".toList := by
    have hchars : "\tNoT\u2003a = TRUE".toList = ['\t'] ++ ("NoT".toList ++ (['\u2003'] ++
        ("a".toList ++ ([' '] ++ ("=".toList ++ ([' '] ++ ("TRUE".toList ++ []))))))) := by
      decide +kernel
    have hliteral : Token.Relaid [literal] ([' '] ++ ("TRUE".toList ++ [])) :=
      .cons (by decide +kernel) (.inr (by decide +kernel)) (.nil (by decide +kernel)) (by simp)
    rw [hchars]
    refine .cons (by decide +kernel) (.inr (by decide +kernel))
      (.cons (by decide +kernel) (.inl rfl)
        (.cons (by decide +kernel) (.inl rfl) hliteral ?_) ?_) ?_
    · simp [hspace]
    · simp [hspace]
    · simp [hwide]
  have hparse : parse "not a=true" = .ok rule := by decide +kernel
  have hshort : Token.scan "not a" = .ok [negation, name] := by decide +kernel
  have hshort' : Token.Relaid [negation, name] "nOT\na ".toList := by
    have hchars : "nOT\na ".toList = [] ++ ("nOT".toList ++ (['\n'] ++ ("a".toList ++ [' ']))) := by
      decide +kernel
    rw [hchars]
    refine .cons (by decide +kernel) (.inr (by decide +kernel))
      (.cons (by decide +kernel) (.inl rfl) (.nil (by decide +kernel)) ?_) ?_
    · simp [hspace]
    · simp [hline]
  have hfails : parse "not a" = .error (.grammatical ⟨5, .operator, none⟩) := by decide +kernel
  obtain ⟨_, -, -, hok, -⟩ := parse_relaid hscan hrelaid
  obtain ⟨_, -, -, -, herror⟩ := parse_relaid hshort hshort'
  obtain ⟨k, error, error', heq, hother, hk, -, hexpected⟩ := herror _ hfails
  rw [heq] at hfails
  exact ⟨⟨hscan, hrelaid, hparse, hok rule hparse⟩,
    k, error, error', hshort, hshort', hfails, hother, hk, hexpected⟩

end Criteria
