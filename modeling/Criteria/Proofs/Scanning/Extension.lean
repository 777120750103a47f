import Criteria.Proofs.Scanning.Lexemes

/-! Texts that stand inside longer ones. A token is read the same whatever follows behind a blank, a
closing parenthesis or a quote, so a text has its own tokens wherever it stands before one of
these. -/
namespace Criteria

namespace Text

lemma isWordStart_or_isDigit {c : Char} (h : isWordChar c = true) :
    isWordStart c = true ∨ c.isDigit = true := by
  simp only [isWordChar, Char.isAlphanum, Bool.or_eq_true] at h
  simp only [isWordStart, Bool.or_eq_true]
  rcases h with (h | h) | h
  · exact .inl (.inl h)
  · exact .inr h
  · exact .inl (.inr h)

namespace Quoted

theorem readFrom_append {pending : Bool} {cs value : List Char} {n : ℕ}
    (h : readFrom pending cs = some (value, n)) (rest : List Char) :
    n ≤ cs.length ∧ readFrom pending (cs ++ rest) = some (value, n) := by
  induction cs generalizing pending value n with
  | nil => cases h
  | cons c cs ih =>
    have next {pending : Bool} {f : List Char → List Char}
        (h : (readFrom pending cs).map (fun read => (f read.1, read.2 + 1)) = some (value, n)) :
        n ≤ (c :: cs).length ∧
          (readFrom pending (cs ++ rest)).map (fun read => (f read.1, read.2 + 1)) =
            some (value, n) := by
      obtain ⟨⟨text, k⟩, hk, heq⟩ := Option.map_eq_some_iff.mp h
      cases heq
      obtain ⟨hle, happend⟩ := ih hk
      exact ⟨Nat.succ_le_succ hle, by rw [happend]; rfl⟩
    rw [List.cons_append]
    simp only [readFrom] at h ⊢
    by_cases hp : pending = true
    · simp only [if_pos hp] at h ⊢
      exact next (f := fun text => if isEscapable c then c :: text else '\\' :: c :: text) h
    · simp only [if_neg hp] at h ⊢
      by_cases hquote : c = '"'
      · simp only [if_pos hquote] at h ⊢
        cases h
        exact ⟨by simp, rfl⟩
      · simp only [if_neg hquote] at h ⊢
        by_cases hslash : c = '\\'
        · simp only [if_pos hslash] at h ⊢
          exact next (f := id) h
        · simp only [if_neg hslash] at h ⊢
          exact next (f := (c :: ·)) h

end Quoted
end Text

namespace Token

variable {c : Char} {cs rest : List Char}

/-- What begins with a blank or a closing parenthesis, if with anything. -/
def Apart (rest : List Char) : Prop := ∀ c ∈ rest.head?, Text.isBlank c = true ∨ c = ')'

theorem Boundary.apart (h : Boundary rest) : Apart rest := by
  intro c hc
  rcases h c hc with rfl | rfl
  · exact .inl (by decide)
  · exact .inr rfl

theorem Apart.head (h : Apart rest) {p : Char → Bool}
    (hblank : ∀ c, p c = true → Text.isBlank c = false) (hclosing : p ')' = false) :
    ∀ c ∈ rest.head?, p c = false := by
  intro c hc
  rcases h c hc with hb | rfl
  · rw [← Bool.not_eq_true]
    intro hp
    rw [hblank c hp] at hb
    cases hb
  · exact hclosing

theorem Apart.isWordChar_head (h : Apart rest) : ∀ c ∈ rest.head?, Text.isWordChar c = false := by
  refine h.head (fun c hc => ?_) (by decide)
  rcases Text.isWordStart_or_isDigit hc with hc | hc
  · exact isBlank_of_isWordStart hc
  · exact isBlank_of_isDigit hc

theorem Apart.head_ne (h : Apart rest) {mark : Char} (hblank : Text.isBlank mark = false)
    (hclosing : mark ≠ ')') : rest.head? ≠ some mark := by
  intro hc
  rcases h mark hc with hb | rfl
  · rw [hblank] at hb
    cases hb
  · exact hclosing rfl

/-- What ends every token before it: it begins with no character of a word, no equals sign and no
point. -/
structure Severs (rest : List Char) : Prop where
  isWordChar_head : ∀ c ∈ rest.head?, Text.isWordChar c = false
  head_ne_equals : rest.head? ≠ some '='
  head_ne_point : rest.head? ≠ some '.'

theorem Apart.severs (h : Apart rest) : Severs rest :=
  ⟨h.isWordChar_head, h.head_ne (by decide) (by decide), h.head_ne (by decide) (by decide)⟩

theorem severs_quote (rest : List Char) : Severs ('"' :: rest) :=
  ⟨by simp [Text.isWordChar], by simp, by simp⟩

theorem Severs.isDigit_head (h : Severs rest) : ∀ c ∈ rest.head?, c.isDigit = false := by
  intro c hc
  have hword := h.isWordChar_head c hc
  simp only [Text.isWordChar, Char.isAlphanum, Bool.or_eq_false_iff] at hword
  exact hword.1.2

/-- A run of characters of a class ends where it ended, if none of the class follows. -/
lemma takeWhile_append {p : Char → Bool} (h : ∀ c ∈ rest.head?, p c = false) (cs : List Char) :
    (cs ++ rest).takeWhile p = cs.takeWhile p ∧
      (cs ++ rest).dropWhile p = cs.dropWhile p ++ rest := by
  induction cs with
  | nil =>
    cases rest with
    | nil => simp
    | cons c rest => simp [h c rfl]
  | cons c cs ih =>
    by_cases hc : p c = true
    · simpa [hc] using ih
    · simp [hc]

/-- The whole digits of a number, and those of its fraction if a point and a digit follow them. -/
lemma numeral_cases (cs : List Char) :
    (∃ d ds, cs.dropWhile Char.isDigit = '.' :: d :: ds ∧ d.isDigit = true ∧
        numeral cs = (cs.takeWhile Char.isDigit, (d :: ds).takeWhile Char.isDigit)) ∨
      (∀ d ds, cs.dropWhile Char.isDigit = '.' :: d :: ds → d.isDigit = false) ∧
        numeral cs = (cs.takeWhile Char.isDigit, []) := by
  unfold numeral
  split
  · rename_i d ds hcs
    by_cases hd : d.isDigit = true
    · exact .inl ⟨d, ds, hcs, hd, by simp only [if_pos hd]⟩
    · refine .inr ⟨fun d' ds' h => ?_, by simp only [if_neg hd]⟩
      cases hcs.symm.trans h
      simpa using hd
  · rename_i hno
    exact .inr ⟨fun d ds h => absurd h (hno d ds), rfl⟩

theorem numeral_extend (hr : Severs rest) (cs : List Char) : numeral (cs ++ rest) = numeral cs := by
  obtain ⟨htake, hdrop⟩ := takeWhile_append hr.isDigit_head cs
  have hpoint := hr.head_ne_point
  rcases numeral_cases cs with ⟨d, ds, hcs, hd, hnumeral⟩ | ⟨hno, hnumeral⟩
  · rw [hcs] at hdrop
    rw [hnumeral, numeral, htake, hdrop]
    simp only [List.cons_append, if_pos hd]
    rw [← List.cons_append, (takeWhile_append hr.isDigit_head (d :: ds)).1]
  · rcases numeral_cases (cs ++ rest) with ⟨d, ds, hall, hd, -⟩ | ⟨-, hall⟩
    · rw [hdrop] at hall
      rcases hcs : cs.dropWhile Char.isDigit with _ | ⟨p, _ | ⟨x, xs⟩⟩
      · rw [hcs, List.nil_append] at hall
        simp [hall] at hpoint
      · rw [hcs] at hall
        cases hall
        simp [hr.isDigit_head d rfl] at hd
      · rw [hcs] at hall
        cases hall
        rw [hno d xs hcs] at hd
        cases hd
    · rw [hall, hnumeral, htake]

/-- The digits of a number and its point are characters of the text. -/
theorem length_numeral_le (cs : List Char) : (numeral cs).1.length +
    (if (numeral cs).2.isEmpty then 0 else (numeral cs).2.length + 1) ≤ cs.length := by
  have hsplit : (cs.takeWhile Char.isDigit).length + (cs.dropWhile Char.isDigit).length =
      cs.length := by
    rw [← List.length_append, List.takeWhile_append_dropWhile]
  rcases numeral_cases cs with ⟨d, ds, hcs, -, hnumeral⟩ | ⟨-, hnumeral⟩
  · have hle := (List.takeWhile_sublist Char.isDigit (l := d :: ds)).length_le
    simp only [hcs, List.length_cons] at hsplit hle
    simp only [hnumeral]
    split
    · omega
    · omega
  · simp only [hnumeral, List.isEmpty_nil, if_true]
    omega

theorem number_extend (hr : Severs rest) (negative : Bool) (cs : List Char) :
    number negative (cs ++ rest) = number negative cs := by
  simp only [number, numeral_extend hr]

theorem le_length_of_number {negative : Bool} {kind : Kind} {n : ℕ}
    (h : number negative cs = .ok (kind, n)) :
    n ≤ if negative then cs.length else cs.length - 1 := by
  have hle := length_numeral_le cs
  simp only [number] at h
  split at h
  · cases h
    cases negative with
    | true => simpa using hle
    | false => simpa using Nat.sub_le_sub_right hle 1
  · cases h

/-- A token is the same whatever ends it. So is the reason why there is none, unless it is a quote
that is not closed. -/
theorem lexeme_extend (hr : Severs rest) (h : lexeme c cs ≠ .error .unterminated) :
    lexeme c (cs ++ rest) = lexeme c cs := by
  have hequals : ((cs ++ rest).head? == some '=') = (cs.head? == some '=') := by
    cases cs with
    | nil =>
      simpa using hr.head_ne_equals
    | cons d ds => rfl
  by_cases hc : c ∈ marks
  · simp only [marks, List.mem_cons, List.not_mem_nil, or_false] at hc
    rcases hc with rfl | rfl | rfl | rfl | rfl | rfl | rfl | rfl
    · rw [lexeme_opening, lexeme_opening]
    · rw [lexeme_closing, lexeme_closing]
    · rw [lexeme_greater, lexeme_greater, hequals]
    · rw [lexeme_less, lexeme_less, hequals]
    · rw [lexeme_equal, lexeme_equal]
    · rw [lexeme_exclamation, lexeme_exclamation, hequals]
    · rw [lexeme_quote] at h ⊢
      rw [lexeme_quote]
      cases hread : Text.Quoted.read cs with
      | none => simp [hread] at h
      | some read => rw [Text.Quoted.read, (Text.Quoted.readFrom_append hread rest).2]
    · have hdigit : (cs ++ rest).head?.any Char.isDigit = cs.head?.any Char.isDigit := by
        cases cs with
        | nil =>
          cases rest with
          | nil => rfl
          | cons r rest => exact hr.isDigit_head r rfl
        | cons d ds => rfl
      rw [lexeme_minus, lexeme_minus, hdigit, number_extend hr]
  · rw [lexeme_of_notMem_marks hc, lexeme_of_notMem_marks hc, ← List.cons_append,
      number_extend hr, (takeWhile_append hr.isWordChar_head cs).1]

/-- A token takes no more characters than there are. -/
theorem le_length_of_lexeme {kind : Kind} {n : ℕ} (h : lexeme c cs = .ok (kind, n)) :
    n ≤ cs.length := by
  have hequals : (cs.head? == some '=') = true → 1 ≤ cs.length := by
    cases cs <;> simp
  by_cases hc : c ∈ marks
  · simp only [marks, List.mem_cons, List.not_mem_nil, or_false] at hc
    rcases hc with rfl | rfl | rfl | rfl | rfl | rfl | rfl | rfl
    · rw [lexeme_opening] at h
      cases h
      exact Nat.zero_le _
    · rw [lexeme_closing] at h
      cases h
      exact Nat.zero_le _
    · rw [lexeme_greater] at h
      split at h <;> cases h
      · exact hequals ‹_›
      · exact Nat.zero_le _
    · rw [lexeme_less] at h
      split at h <;> cases h
      · exact hequals ‹_›
      · exact Nat.zero_le _
    · rw [lexeme_equal] at h
      cases h
      exact Nat.zero_le _
    · rw [lexeme_exclamation] at h
      split at h <;> cases h
      exact hequals ‹_›
    · rw [lexeme_quote] at h
      cases hread : Text.Quoted.read cs with
      | none => simp [hread] at h
      | some read =>
        simp only [hread, Except.ok.injEq, Prod.mk.injEq] at h
        exact h.2 ▸ (Text.Quoted.readFrom_append hread []).1
    · rw [lexeme_minus] at h
      split at h
      · exact le_length_of_number h
      · cases h
  · rw [lexeme_of_notMem_marks hc] at h
    split at h
    · exact le_length_of_number h
    · split at h <;> cases h
      exact (List.takeWhile_sublist _).length_le

/-- The token further on in a text. -/
def shift (d : ℕ) (t : Token) : Token := { t with position := t.position + d }

@[simp] theorem kind_shift (d : ℕ) (t : Token) : (t.shift d).kind = t.kind := rfl

namespace Splits

variable {p q : ℕ} {ts : List Token} {back : List Char}

/-- A text splits in the same way wherever it begins. -/
theorem shift (d : ℕ) (h : Splits p cs ts q rest) :
    Splits (p + d) cs (ts.map (Token.shift d)) (q + d) rest := by
  induction h with
  | done => exact .done
  | @blank p _ _ _ _ _ hc _ ih =>
    rw [Nat.add_right_comm] at ih
    exact .blank hc ih
  | @token p _ _ _ n _ _ _ hc hl _ ih =>
    rw [show p + n + 1 + d = p + d + n + 1 by omega] at ih
    exact .token hc hl ih

/-- A front of a text splits alike if what comes behind the text ends every token. -/
theorem extend (h : Splits p cs ts q back) (hr : Severs rest) :
    Splits p (cs ++ rest) ts q (back ++ rest) := by
  induction h with
  | done => exact .done
  | blank hc _ ih => exact .blank hc ih
  | @token p c cs kind n ts q back hc hl _ ih =>
    have hn := le_length_of_lexeme hl
    have htake : (cs ++ rest).take n = cs.take n := List.take_append_of_le_length hn
    rw [← List.drop_append_of_le_length hn] at ih
    rw [← htake]
    exact .token hc ((lexeme_extend hr (by simp [hl])).trans hl) ih

end Splits

end Token
end Criteria
