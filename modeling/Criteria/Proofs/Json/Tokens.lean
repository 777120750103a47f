import Criteria.Proofs.Json.Numbers
import Criteria.Proofs.Json.Strings

/-! The tokens of documents and their spellings. A text splits into tokens exactly where it is laid
out as them: spellings one behind the other with any space between, and no digit behind a number. -/
namespace Criteria.Json.Token

/-- The tokens that have one spelling. -/
def words : List (List Char × Token) :=
  [(['['], openArray), ([']'], closeArray), (['\x7b'], openObject), (['\x7d'], closeObject),
    ([':'], colon), ([','], comma), (['n', 'u', 'l', 'l'], value .null),
    (['t', 'r', 'u', 'e'], value (.boolean true)),
    (['f', 'a', 'l', 's', 'e'], value (.boolean false))]

/-- The spellings of a token, and what may stand behind each. -/
inductive Spelled : List Char → Token → List Char → Prop
  | word {chars t rest} (h : (chars, t) ∈ words) : Spelled chars t rest
  | string {body ps s rest} (hps : Pieces body ps) (hs : Paired ps s) :
      Spelled ('"' :: (body ++ ['"'])) (string (some (String.ofList s))) rest
  | broken {body ps rest} (hps : Pieces body ps) (hs : ∀ s, ¬ Paired ps s) :
      Spelled ('"' :: (body ++ ['"'])) (string none) rest
  | number {negative chars d alone rest} (h : Number chars d alone)
      (hrest : ∀ c ∈ rest.head?, c.isDigit = false) :
      Spelled (signed negative chars) (number ⟨negative, d, alone⟩) rest

/-- A text is its tokens one behind the other, with any space around them. -/
inductive Laid : List Char → List Token → Prop
  | nil : Laid [] []
  | space {c cs ts} (hc : isSpace c = true) (h : Laid cs ts) : Laid (c :: cs) ts
  | token {chars t rest ts} (ht : Spelled chars t rest) (h : Laid rest ts) :
      Laid (chars ++ rest) (t :: ts)

variable {c : Char} {cs chars body rest : List Char} {ps : List Piece} {t : Token}
  {ts : List Token} {n : ℕ}

lemma ne_of_isDigit (h : c.isDigit = true) {mark : Char} (hmark : mark.isDigit = false) :
    c ≠ mark := by
  rintro rfl
  rw [h] at hmark
  cases hmark

lemma lexeme?_digit (h : c.isDigit = true) :
    lexeme? c cs = (numeral? false (c :: cs)).map fun (n, taken) => (number n, taken - 1) := by
  simp [lexeme?, h, ne_of_isDigit h]

lemma isSpace_of_isDigit (h : c.isDigit = true) : isSpace c = false := by
  simp [isSpace, ne_of_isDigit h]

theorem lexeme?_string (h : Pieces body ps) (rest : List Char) :
    lexeme? '"' (body ++ '"' :: rest) =
      some (string ((text? ps).map String.ofList), body.length + 1) := by
  simp [lexeme?, h.pieces?]

lemma lexeme?_word (h : (chars, t) ∈ words) : ∃ c cs, chars = c :: cs ∧ isSpace c = false ∧
    ∀ rest, lexeme? c (cs ++ rest) = some (t, cs.length) := by
  simp only [words, List.mem_cons, List.not_mem_nil, or_false, Prod.mk.injEq] at h
  rcases h with ⟨rfl, rfl⟩ | ⟨rfl, rfl⟩ | ⟨rfl, rfl⟩ | ⟨rfl, rfl⟩ | ⟨rfl, rfl⟩ | ⟨rfl, rfl⟩ |
    ⟨rfl, rfl⟩ | ⟨rfl, rfl⟩ | ⟨rfl, rfl⟩
  all_goals exact ⟨_, _, rfl, by decide, fun rest => by simp [lexeme?] <;> rfl⟩

/-- Digits behind a sign are a token where they are a numeral. -/
theorem lexeme?_signed (h : ∃ c cs, chars = c :: cs ∧ c.isDigit = true) (negative : Bool) :
    ∃ c cs, signed negative chars = c :: cs ∧ isSpace c = false ∧
      ∀ {rest n}, numeral? negative (chars ++ rest) = some (n, chars.length) →
        lexeme? c (cs ++ rest) = some (number n, cs.length) := by
  cases negative with
  | true => exact ⟨'-', chars, rfl, by decide, fun hnumeral => by simp [lexeme?, hnumeral]⟩
  | false =>
    obtain ⟨c, cs, rfl, hc⟩ := h
    refine ⟨c, cs, rfl, isSpace_of_isDigit hc, fun hnumeral => ?_⟩
    rw [lexeme?_digit hc, ← List.cons_append, hnumeral]
    simp

theorem Spelled.lexeme? (h : Spelled chars t rest)
    (hmark : ∀ c ∈ rest.head?, c ≠ '.' ∧ c ≠ 'e' ∧ c ≠ 'E') :
    ∃ c cs, chars = c :: cs ∧ isSpace c = false ∧
      lexeme? c (cs ++ rest) = some (t, cs.length) := by
  cases h with
  | word h =>
    obtain ⟨c, cs, hchars, hc, hl⟩ := lexeme?_word h
    exact ⟨c, cs, hchars, hc, hl rest⟩
  | @string body ps s _ hps hs =>
    refine ⟨'"', body ++ ['"'], rfl, by decide, ?_⟩
    rw [List.append_assoc, List.singleton_append, lexeme?_string hps, text?_eq_some_iff.mpr hs]
    simp
  | @broken body ps _ hps hs =>
    refine ⟨'"', body ++ ['"'], rfl, by decide, ?_⟩
    have hnone : text? ps = none :=
      Option.eq_none_iff_forall_ne_some.mpr fun s h => hs s (text?_eq_some_iff.mp h)
    rw [List.append_assoc, List.singleton_append, lexeme?_string hps, hnone]
    simp
  | @number negative _ _ _ _ h hrest =>
    obtain ⟨c, cs, hchars, hc, hl⟩ := lexeme?_signed h.head negative
    have hends : Ends rest := fun c hc => ⟨hrest c hc, hmark c hc⟩
    exact ⟨c, cs, hchars, hc, hl (numeral?_append h hends negative)⟩

lemma spelled_pieces (hps : Pieces body ps) (rest : List Char) :
    Spelled ('"' :: (body ++ ['"'])) (string ((text? ps).map String.ofList)) rest := by
  cases htext : text? ps with
  | none =>
    refine .broken hps fun s hs => ?_
    rw [text?_eq_some_iff.mpr hs] at htext
    cases htext
  | some s => exact .string hps (text?_eq_some_iff.mp htext)

/-- A word of which the first character and then the others have been compared. -/
lemma spelled_of_isPrefixOf {word : List Char} (hcs : word.isPrefixOf cs = true)
    (hword : (c :: word, t) ∈ words) :
    ∃ ds rest, cs = ds ++ rest ∧ word.length = ds.length ∧ Spelled (c :: ds) t rest := by
  obtain ⟨rest, hrest⟩ := List.isPrefixOf_iff_prefix.mp hcs
  exact ⟨word, rest, hrest.symm, rfl, .word hword⟩

lemma spelled_of_numeral? {negative : Bool} {numeral : Numeral}
    (h : numeral? negative cs = some (numeral, n)) : ∃ chars rest, cs = chars ++ rest ∧
      chars ≠ [] ∧ n = chars.length ∧ Spelled (signed negative chars) (number numeral) rest := by
  obtain ⟨chars, rest, rfl, rfl, rfl, hnumber, hrest⟩ := exists_of_numeral? h
  obtain ⟨c, cs, hchars, -⟩ := hnumber.head
  exact ⟨chars, rest, rfl, hchars ▸ List.cons_ne_nil _ _, rfl, .number hnumber hrest⟩

/-- What is read as a token is a spelling of it. The reader tries the brackets, the colon and the
comma, then a string, a number, and last the three words of letters. -/
theorem exists_of_lexeme? (h : lexeme? c cs = some (t, n)) :
    ∃ ds rest, cs = ds ++ rest ∧ n = ds.length ∧ Spelled (c :: ds) t rest := by
  unfold Token.lexeme? at h
  dsimp only at h
  iterate 6
    rcases ite_eq_iff.mp h with ⟨hc, h⟩ | ⟨-, h⟩
    · cases h
      exact @spelled_of_isPrefixOf _ _ _ [] rfl (by simp [words, hc])
  rcases ite_eq_iff.mp h with ⟨hc, h⟩ | ⟨-, h⟩
  · obtain ⟨⟨ps, k⟩, hps, heq⟩ := Option.map_eq_some_iff.mp h
    cases heq
    obtain ⟨body, rest, rfl, rfl, hbody⟩ := exists_of_pieces? hps
    exact ⟨body ++ ['"'], rest, by simp, by simp, hc ▸ spelled_pieces hbody rest⟩
  rcases ite_eq_iff.mp h with ⟨hc, h⟩ | ⟨-, h⟩
  · obtain ⟨⟨numeral, taken⟩, hnumeral, heq⟩ := Option.map_eq_some_iff.mp h
    cases heq
    obtain ⟨chars, rest, rfl, -, rfl, hspelled⟩ := spelled_of_numeral? hnumeral
    exact ⟨chars, rest, rfl, rfl, hc ▸ hspelled⟩
  rcases ite_eq_iff.mp h with ⟨-, h⟩ | ⟨-, h⟩
  · obtain ⟨⟨numeral, taken⟩, hnumeral, heq⟩ := Option.map_eq_some_iff.mp h
    cases heq
    obtain ⟨chars, rest, hcs, hne, rfl, hspelled⟩ := spelled_of_numeral? hnumeral
    obtain ⟨d, ds, rfl⟩ := List.exists_cons_of_ne_nil hne
    cases hcs
    exact ⟨ds, rest, rfl, rfl, hspelled⟩
  iterate 3
    rcases ite_eq_iff.mp h with ⟨hc, h⟩ | ⟨-, h⟩
    · rcases ite_eq_iff.mp h with ⟨hcs, h⟩ | ⟨-, h⟩
      · cases h
        exact spelled_of_isPrefixOf hcs (by simp [words, hc])
      · cases h
  cases h

theorem Spelled.head (h : Spelled chars t rest) :
    ∃ c cs, chars = c :: cs ∧ c ≠ '.' ∧ c ≠ 'e' ∧ c ≠ 'E' := by
  cases h with
  | word h =>
    have all : ∀ p ∈ words, ∃ c cs, p.1 = c :: cs ∧ c ≠ '.' ∧ c ≠ 'e' ∧ c ≠ 'E' := by
      simp [words]
    exact all _ h
  | string | broken => exact ⟨'"', _, rfl, by decide⟩
  | @number negative _ _ _ _ h _ =>
    obtain ⟨c, cs, rfl, hc⟩ := h.head
    cases negative with
    | true => exact ⟨'-', _, rfl, by decide⟩
    | false => exact ⟨c, cs, rfl, ne_of_isDigit hc rfl, ne_of_isDigit hc rfl, ne_of_isDigit hc rfl⟩

/-- No token and no space begins with what a number could go on with. -/
theorem Laid.head (h : Laid cs ts) : ∀ c ∈ cs.head?, c ≠ '.' ∧ c ≠ 'e' ∧ c ≠ 'E' := by
  cases h with
  | nil => simp
  | space hc h =>
    rintro c ⟨⟩
    refine ⟨?_, ?_, ?_⟩ <;> rintro rfl <;> cases hc
  | token ht h =>
    obtain ⟨c, cs, rfl, hmarks⟩ := ht.head
    rintro _ ⟨⟩
    exact hmarks

/-- The tokens that are found in a text are those that it is laid out as. -/
theorem scan?_eq_some_iff : scan? cs = some ts ↔ Laid cs ts := by
  constructor
  · intro h
    induction cs using scan?.induct generalizing ts with
    | case1 =>
      rw [scan?] at h
      cases h
      exact .nil
    | case2 c cs hc ih =>
      rw [scan?, if_pos hc] at h
      exact .space hc (ih h)
    | case3 c cs hc hl =>
      rw [scan?, if_neg hc, hl] at h
      cases h
    | case4 c cs hc t n hl ih =>
      rw [scan?, if_neg hc, hl] at h
      obtain ⟨ts, hts, rfl⟩ := Option.map_eq_some_iff.mp h
      obtain ⟨ds, rest, rfl, rfl, ht⟩ := exists_of_lexeme? hl
      rw [List.drop_left] at hts ih
      exact .token ht (ih hts)
  · intro h
    induction h with
    | nil => rw [scan?]
    | space hc _ ih => rw [scan?, if_pos hc, ih]
    | token ht hrest ih =>
      obtain ⟨c, cs, rfl, hc, hl⟩ := ht.lexeme? hrest.head
      rw [List.cons_append, scan?]
      simp [hc, hl, ih]

end Criteria.Json.Token
