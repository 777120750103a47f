import Criteria.Proofs.Numeric.Numeral
import Criteria.Proofs.Scanning.Splits

/-! The texts that stand for one token of each kind: words, operators, parentheses and literals. -/
namespace Criteria

namespace Text

lemma isDigit_iff (c : Char) : c.isDigit = true ↔ 48 ≤ c.toNat ∧ c.toNat ≤ 57 :=
  Char.isDigit_iff_toNat

lemma isWordStart_iff (c : Char) : isWordStart c = true ↔
    ((65 ≤ c.toNat ∧ c.toNat ≤ 90) ∨ (97 ≤ c.toNat ∧ c.toNat ≤ 122)) ∨ c.toNat = 95 := by
  have halpha : c.isAlpha = (decide (c.val ≥ 65 ∧ c.val ≤ 90) ||
      (decide (c.val ≥ 97) && decide (c.val ≤ 122))) := rfl
  simp only [isWordStart, halpha, Bool.or_eq_true, Bool.and_eq_true, decide_eq_true_eq, ge_iff_le,
    UInt32.le_iff_toNat_le, beq_iff_eq, ← Char.toNat_inj]
  rfl

lemma isWordStart_of_isName {name : String} (h : isName name = true) :
    ∃ c cs, name.toList = c :: cs ∧ isWordStart c = true ∧ (∀ d ∈ cs, isWordChar d = true) ∧
      keyword? name = none := by
  unfold isName at h
  split at h
  · cases h
  · rename_i c cs hname
    simp only [Bool.and_eq_true, List.all_eq_true, Option.isNone_iff_eq_none] at h
    exact ⟨c, cs, hname, h.1.1, h.1.2, h.2⟩

/-- An escaped text ends at the quote behind it. -/
theorem Quoted.read_escape (cs rest : List Char) :
    read (escape cs ++ '"' :: rest) = some (cs, (escape cs).length + 1) := by
  unfold read
  induction cs with
  | nil => rfl
  | cons c cs ih =>
    by_cases hc : isEscapable c = true
    · simp [escape, readFrom, hc, ih]
    · have hquote : c ≠ '"' := by
        rintro rfl
        exact hc rfl
      have hslash : c ≠ '\\' := by
        rintro rfl
        exact hc rfl
      simp [escape, readFrom, hc, hquote, hslash, ih]

end Text

namespace Token

/-- What the token can be that begins with a character, as far as the text goes on. -/
inductive Lexes : Char → List Char → Kind → ℕ → Prop
  | opening {cs} : Lexes '(' cs .opening 0
  | closing {cs} : Lexes ')' cs .closing 0
  | operator {o : Operator} {c cs n} (h : o.symbol.toList = c :: cs.take n) :
      Lexes c cs (.comparison o) n
  | string {cs value n} (h : Text.Quoted.read cs = some (value, n)) :
      Lexes '"' cs (.literal (.string (String.ofList value))) n
  | negative {cs kind n} (h : number true cs = .ok (kind, n)) : Lexes '-' cs kind n
  | positive {c cs kind n} (hc : c.isDigit = true) (h : number false (c :: cs) = .ok (kind, n)) :
      Lexes c cs kind n
  | word {c cs} (hc : Text.isWordStart c = true) :
      Lexes c cs (word (String.ofList (c :: cs.takeWhile Text.isWordChar)))
        (cs.takeWhile Text.isWordChar).length

variable {c : Char} {cs rest : List Char}

lemma isDigit_of_isWordStart (h : Text.isWordStart c = true) : c.isDigit = false := by
  rw [Text.isWordStart_iff] at h
  rw [← Bool.not_eq_true, Text.isDigit_iff]
  omega

lemma isBlank_of_isWordStart (h : Text.isWordStart c = true) : Text.isBlank c = false := by
  rw [Text.isWordStart_iff] at h
  simp only [Text.isBlank, Bool.or_eq_false_iff, Bool.and_eq_false_iff, decide_eq_false_iff_not,
    beq_eq_false_iff_ne]
  omega

lemma isBlank_of_isDigit (h : c.isDigit = true) : Text.isBlank c = false := by
  rw [Text.isDigit_iff] at h
  simp only [Text.isBlank, Bool.or_eq_false_iff, Bool.and_eq_false_iff, decide_eq_false_iff_not,
    beq_eq_false_iff_ne]
  omega

/-- The characters that a parenthesis, an operator, a string or a negative number begins with. -/
def marks : List Char := ['(', ')', '>', '<', '=', '!', '"', '-']

lemma lexeme_of_notMem_marks (h : c ∉ marks) : lexeme c cs =
    if c.isDigit then number false (c :: cs)
    else if Text.isWordStart c then
      .ok (word (String.ofList (c :: cs.takeWhile Text.isWordChar)),
        (cs.takeWhile Text.isWordChar).length)
    else .error (.unexpected c) := by
  simp only [marks, List.mem_cons, List.not_mem_nil, or_false, not_or] at h
  simp [lexeme, h]

lemma lexeme_opening (cs : List Char) : lexeme '(' cs = .ok (.opening, 0) := rfl

lemma lexeme_closing (cs : List Char) : lexeme ')' cs = .ok (.closing, 0) := rfl

lemma lexeme_equal (cs : List Char) : lexeme '=' cs = .ok (.comparison .equal, 0) := rfl

lemma lexeme_greater (cs : List Char) : lexeme '>' cs = .ok (if cs.head? == some '=' then
    (.comparison .greaterEqual, 1) else (.comparison .greater, 0)) := rfl

lemma lexeme_less (cs : List Char) : lexeme '<' cs = .ok (if cs.head? == some '=' then
    (.comparison .lessEqual, 1) else (.comparison .less, 0)) := rfl

lemma lexeme_exclamation (cs : List Char) : lexeme '!' cs = if cs.head? == some '=' then
    .ok (.comparison .notEqual, 1) else .error (.unexpected '!') := rfl

lemma lexeme_minus (cs : List Char) : lexeme '-' cs = if cs.head?.any Char.isDigit then
    number true cs else .error (.unexpected '-') := by
  simp [lexeme, Text.isWordStart]

lemma lexeme_quote (cs : List Char) : lexeme '"' cs =
    match Text.Quoted.read cs with
    | some (value, n) => .ok (.literal (.string (String.ofList value)), n)
    | none => .error .unterminated := rfl

theorem lexeme_digit (h : c.isDigit = true) : lexeme c cs = number false (c :: cs) := by
  have hmarks : ∀ d ∈ marks, d.isDigit = false := by simp [marks]
  rw [lexeme_of_notMem_marks, if_pos h]
  intro hc
  simp [hmarks c hc] at h

theorem lexeme_word (h : Text.isWordStart c = true) :
    lexeme c cs = .ok (word (String.ofList (c :: cs.takeWhile Text.isWordChar)),
      (cs.takeWhile Text.isWordChar).length) := by
  have hmarks : ∀ d ∈ marks, Text.isWordStart d = false := by simp [marks, Text.isWordStart]
  rw [lexeme_of_notMem_marks, if_neg (by simp [isDigit_of_isWordStart h]), if_pos h]
  intro hc
  simp [hmarks c hc] at h

lemma lexes_of_head_equals {o : Operator} (ho : o.symbol.toList = [c, '='])
    (h : cs.head? = some '=') : Lexes c cs (.comparison o) 1 := by
  cases cs with
  | nil => cases h
  | cons d ds =>
    cases h
    exact .operator ho

lemma lexes_of_equals (short long : Operator) (hshort : short.symbol.toList = [c])
    (hlong : long.symbol.toList = [c, '=']) {kind : Kind} {n : ℕ}
    (h : (if cs.head? == some '=' then (Kind.comparison long, 1) else (.comparison short, 0)) =
      (kind, n)) : Lexes c cs kind n := by
  split at h
  · rename_i hhead
    cases h
    exact lexes_of_head_equals hlong (beq_iff_eq.mp hhead)
  · cases h
    exact .operator hshort

theorem lexes_of_lexeme {kind : Kind} {n : ℕ} (h : lexeme c cs = .ok (kind, n)) :
    Lexes c cs kind n := by
  by_cases hc : c ∈ marks
  · simp only [marks, List.mem_cons, List.not_mem_nil, or_false] at hc
    rcases hc with rfl | rfl | rfl | rfl | rfl | rfl | rfl | rfl
    · rw [lexeme_opening] at h
      cases h
      exact .opening
    · rw [lexeme_closing] at h
      cases h
      exact .closing
    · rw [lexeme_greater] at h
      exact lexes_of_equals .greater .greaterEqual rfl rfl (Except.ok.inj h)
    · rw [lexeme_less] at h
      exact lexes_of_equals .less .lessEqual rfl rfl (Except.ok.inj h)
    · rw [lexeme_equal] at h
      cases h
      exact .operator (o := .equal) rfl
    · rw [lexeme_exclamation] at h
      split at h
      · rename_i hhead
        cases h
        exact lexes_of_head_equals rfl (beq_iff_eq.mp hhead)
      · cases h
    · rw [lexeme_quote] at h
      split at h
      · rename_i hread
        cases h
        exact .string hread
      · cases h
    · rw [lexeme_minus] at h
      split at h
      · exact .negative h
      · cases h
  · rw [lexeme_of_notMem_marks hc] at h
    split at h
    · exact .positive ‹_› h
    · split at h
      · simp only [Except.ok.injEq, Prod.mk.injEq] at h
        obtain ⟨rfl, rfl⟩ := h
        exact .word ‹_›
      · cases h

lemma exists_of_number {negative : Bool} {kind : Kind} {n : ℕ}
    (h : number negative cs = .ok (kind, n)) :
    ∃ x, kind = .literal (.number x) ∧ x.isFinite = true := by
  simp only [number] at h
  split at h
  · rename_i hfinite
    cases h
    exact ⟨_, rfl, hfinite⟩
  · cases h

lemma word_ne_opening (text : String) : word text ≠ .opening := by
  unfold word
  split <;> simp

/-- Only a parenthesis is read as one. -/
theorem eq_of_lexeme_opening {n : ℕ} (h : lexeme c cs = .ok (.opening, n)) : c = '(' := by
  generalize hk : Kind.opening = kind at h
  cases lexes_of_lexeme h with
  | opening => rfl
  | closing | operator | string => cases hk
  | negative h | positive _ h =>
    obtain ⟨x, hx, -⟩ := exists_of_number h
    cases hk.trans hx
  | word => exact absurd hk.symm (word_ne_opening _)

/-- What the scanner makes sure of in a token: names can be written, and numbers are finite. -/
def Kind.Sound : Kind → Prop
  | .identifier name => Text.isName name = true
  | .literal value => value.isFinite = true
  | _ => True

theorem sound_word (hc : Text.isWordStart c = true) :
    (word (String.ofList (c :: cs.takeWhile Text.isWordChar))).Sound := by
  unfold word
  split
  · trivial
  · trivial
  · trivial
  · rfl
  · rfl
  · rename_i hkeyword
    simp only [Kind.Sound, Text.isName, String.toList_ofList, hc, List.all_takeWhile, hkeyword,
      Option.isNone_none, Bool.and_self]

theorem sound_of_lexeme {kind : Kind} {n : ℕ} (h : lexeme c cs = .ok (kind, n)) : kind.Sound := by
  cases lexes_of_lexeme h with
  | opening | closing | operator => trivial
  | string => rfl
  | negative h | positive _ h =>
    obtain ⟨x, rfl, hx⟩ := exists_of_number h
    exact hx
  | word hc => exact sound_word hc

theorem Splits.sound {p q : ℕ} {ts : List Token} (h : Splits p cs ts q rest) :
    ∀ t ∈ ts, t.kind.Sound := by
  induction h with
  | done => simp
  | blank _ _ ih => exact ih
  | token _ hl _ ih => exact List.forall_mem_cons.mpr ⟨sound_of_lexeme hl, ih⟩

theorem spells_word (hc : Text.isWordStart c = true) (hcs : ∀ d ∈ cs, Text.isWordChar d = true)
    (hr : Boundary rest) : Spells (c :: cs) (word (String.ofList (c :: cs))) rest := by
  have hspan : (cs ++ rest).takeWhile Text.isWordChar = cs :=
    (span_append hcs (hr.head (by decide) (by decide))).1
  exact ⟨c, cs, rfl, isBlank_of_isWordStart hc, by rw [lexeme_word hc, hspan]⟩

theorem spells_name {name : String} (h : Text.isName name = true) (hr : Boundary rest) :
    Spells name.toList (.identifier name) rest := by
  obtain ⟨c, cs, hname, hc, hcs, hk⟩ := Text.isWordStart_of_isName h
  have hword : word (String.ofList (c :: cs)) = .identifier name := by
    rw [← hname, String.ofList_toList, word, hk]
  rw [hname, ← hword]
  exact spells_word hc hcs hr

theorem spells_connective (o : Connective) (hr : Boundary rest) :
    Spells o.word.toList (.connective o) rest := by
  cases o with
  | and =>
    change Spells ['A', 'N', 'D'] (.connective .and) rest
    exact spells_word (by decide) (by simp [Text.isWordChar]) hr
  | or =>
    change Spells ['O', 'R'] (.connective .or) rest
    exact spells_word (by decide) (by simp [Text.isWordChar]) hr

theorem spells_not (hr : Boundary rest) : Spells ['N', 'O', 'T'] .not rest :=
  spells_word (by decide) (by simp [Text.isWordChar]) hr

theorem spells_opening (rest : List Char) : Spells ['('] .opening rest :=
  ⟨'(', [], rfl, by decide, by simp [lexeme]⟩

theorem spells_closing (rest : List Char) : Spells [')'] .closing rest :=
  ⟨')', [], rfl, by decide, by simp [lexeme]⟩

theorem spells_operator (o : Operator) (hr : Boundary rest) :
    Spells o.symbol.toList (.comparison o) rest := by
  have hne : rest.head? ≠ some '=' := by
    intro h
    rcases hr '=' h with h | h
    · exact absurd h (by decide)
    · exact absurd h (by decide)
  cases o with
  | greater => exact ⟨'>', [], rfl, by decide, by simp [lexeme, hne]⟩
  | less => exact ⟨'<', [], rfl, by decide, by simp [lexeme, hne]⟩
  | greaterEqual => exact ⟨'>', ['='], rfl, by decide, by simp [lexeme]⟩
  | lessEqual => exact ⟨'<', ['='], rfl, by decide, by simp [lexeme]⟩
  | equal => exact ⟨'=', [], rfl, by decide, by simp [lexeme]⟩
  | notEqual => exact ⟨'!', ['='], rfl, by decide, by simp [lexeme]⟩

theorem spells_string (text : String) (rest : List Char) :
    Spells (Text.Quoted.write text).toList (.literal (.string text)) rest := by
  refine ⟨'"', Text.Quoted.escape text.toList ++ ['"'], by simp [Text.Quoted.write], by decide, ?_⟩
  have h := Text.Quoted.read_escape text.toList rest
  simp [lexeme, h]

section Number

variable {chars whole fraction : List Char}

theorem numeral_append (hp : Decimal.Places chars whole fraction)
    (hr : Boundary rest) : numeral (chars ++ rest) = (whole, fraction) := by
  have hdigit := hr.head (p := Char.isDigit) (by decide) (by decide)
  rw [hp.written]
  cases fraction with
  | nil =>
    obtain ⟨hwhole, hrest⟩ := span_append hp.whole_digit hdigit
    simp only [if_true, List.append_nil, numeral, hwhole, hrest]
    split
    · rcases hr '.' rfl with h | h
      · exact absurd h (by decide)
      · exact absurd h (by decide)
    · rfl
  | cons d ds =>
    have hpoint : ∀ c ∈ ('.' :: (d :: ds ++ rest)).head?, c.isDigit = false := by simp
    obtain ⟨hwhole, hrest⟩ := span_append hp.whole_digit hpoint
    have hfraction := (span_append hp.fraction_digit hdigit).1
    rw [List.cons_append] at hwhole hrest hfraction
    have hd : d.isDigit = true := hp.fraction_digit d List.mem_cons_self
    simp only [reduceCtorEq, if_false, List.append_assoc, List.cons_append, numeral, hwhole, hrest,
      hd, if_true, hfraction]

theorem number_append (negative : Bool) (hp : Decimal.Places chars whole fraction)
    (hm : (Decimal.ofPlaces whole fraction).magnitude < Binary64.infinity) (hr : Boundary rest) :
    number negative (chars ++ rest) =
      .ok (.literal (.number (.ofMagnitude negative (Decimal.ofPlaces whole fraction).magnitude)),
        if negative then chars.length else chars.length - 1) := by
  have hlength : whole.length + (if fraction.isEmpty then 0 else fraction.length + 1) =
      chars.length := by
    rw [hp.written]
    cases fraction <;> simp
  have hfinite : (Binary64.ofMagnitude negative
      (Decimal.ofPlaces whole fraction).magnitude).isFinite = true := by
    rw [Binary64.isFinite, Binary64.magnitude_ofMagnitude, decide_eq_true_eq]
    exact Nat.lt_of_le_of_lt (Nat.mod_le _ _) hm
  simp only [number, numeral_append hp hr, hlength]
  exact if_pos hfinite

/-- A finite number is read back from its text with all its bits. -/
theorem spells_number {x : Binary64} (hx : x.isFinite = true) (hr : Boundary rest) :
    Spells x.ruleText (.literal (.number x)) rest := by
  have hfinite : x.magnitude < Binary64.infinity := by simpa [Binary64.isFinite] using hx
  have hnan : x.isNaN = false := by simp [Binary64.isNaN, Nat.le_of_lt hfinite]
  have hshortest := Binary64.magnitude_shortest .up hfinite
  obtain ⟨whole, fraction, hp, hm⟩ := Decimal.places_positional (Binary64.shortest .up x.magnitude)
  rw [hshortest] at hm
  have hmagnitude := hm hfinite
  have hnumber := number_append x.negative hp (hmagnitude ▸ hfinite) hr
  rw [hmagnitude, Binary64.ofMagnitude_self] at hnumber
  obtain ⟨d, whole, rfl⟩ := List.exists_cons_of_ne_nil hp.whole_ne_nil
  have hd : d.isDigit = true := hp.whole_digit d List.mem_cons_self
  obtain ⟨cs, hcs⟩ : ∃ cs, (Binary64.shortest .up x.magnitude).positional = d :: cs :=
    ⟨_, hp.written⟩
  rw [hcs] at hnumber
  simp only [Binary64.ruleText, hnan, hx, Bool.false_eq_true, if_false, if_true, hcs]
  cases hs : x.negative with
  | true =>
    rw [hs] at hnumber
    exact ⟨'-', d :: cs, rfl, by decide, by simpa [lexeme, hd] using hnumber⟩
  | false =>
    rw [hs] at hnumber
    exact ⟨d, cs, rfl, isBlank_of_isDigit hd, by rw [lexeme_digit hd]; exact hnumber⟩

end Number

/-- The text of a literal is read back as that literal. -/
theorem spells_scalar {value : Scalar} (hv : value.isFinite = true) (hr : Boundary rest) :
    Spells value.text.toList (.literal value) rest := by
  cases value with
  | boolean b =>
    cases b with
    | false =>
      change Spells ['f', 'a', 'l', 's', 'e'] (.literal (.boolean false)) rest
      exact spells_word (by decide) (by simp [Text.isWordChar]) hr
    | true =>
      change Spells ['t', 'r', 'u', 'e'] (.literal (.boolean true)) rest
      exact spells_word (by decide) (by simp [Text.isWordChar]) hr
  | number x =>
    rw [Scalar.text, String.toList_ofList]
    exact spells_number hv hr
  | string text => exact spells_string text rest

end Token
end Criteria
