import Criteria.Token.Scan
import Mathlib.Data.Nat.Notation
import Mathlib.Tactic.Lemma

/-! How the front of a text splits into tokens. The characters after it stay in view, as they decide
where its last token ends, so fronts can be put together without being scanned again. -/
namespace Criteria.Token

/-- The tokens of a front of a text, and the place and the characters that it ends before. -/
inductive Splits : ℕ → List Char → List Token → ℕ → List Char → Prop
  | done {p rest} : Splits p rest [] p rest
  | blank {p c cs ts q rest} (hc : Text.isBlank c = true) (h : Splits (p + 1) cs ts q rest) :
      Splits p (c :: cs) ts q rest
  | token {p c cs kind n ts q rest} (hc : Text.isBlank c = false)
      (hl : lexeme c cs = .ok (kind, n)) (h : Splits (p + n + 1) (cs.drop n) ts q rest) :
      Splits p (c :: cs) (⟨kind, String.ofList (c :: cs.take n), p⟩ :: ts) q rest

namespace Splits

variable {p q r : ℕ} {cs ds rest : List Char} {ts us : List Token}

theorem append (h : Splits p cs ts q ds) (h' : Splits q ds us r rest) :
    Splits p cs (ts ++ us) r rest := by
  induction h with
  | done => exact h'
  | blank hc _ ih => exact .blank hc (ih h')
  | token hc hl _ ih => exact .token hc hl (ih h')

/-- The scan of a text continues behind a front that splits. -/
theorem scanFrom_eq (h : Splits p cs ts q rest) :
    scanFrom p cs = (scanFrom q rest).map (ts ++ ·) := by
  induction h with
  | @done p rest => cases hs : scanFrom p rest <;> rfl
  | blank hc _ ih => rw [scanFrom, if_pos hc, ih]
  | @token p c cs kind n ts q rest hc hl _ ih =>
    simp only [scanFrom, hc, hl, ih, Bool.false_eq_true, if_false]
    cases scanFrom q rest <;> rfl

theorem scanFrom_eq_ok (h : Splits p cs ts q []) : scanFrom p cs = .ok ts := by
  rw [h.scanFrom_eq, scanFrom, Except.map, List.append_nil]

/-- A token of one kind stands at its place with a character that begins such tokens only. -/
theorem getElem?_of_mem {kind : Kind} {mark : Char}
    (hkind : ∀ {c cs n}, lexeme c cs = .ok (kind, n) → c = mark)
    (h : Splits p cs ts q rest) {t : Token}
    (ht : t ∈ ts) (hk : t.kind = kind) : p ≤ t.position ∧ cs[t.position - p]? = some mark := by
  induction h with
  | done => cases ht
  | @blank p c cs ts q rest hc _ ih =>
    obtain ⟨hp, hget⟩ := ih ht
    refine ⟨by omega, ?_⟩
    rwa [show t.position - p = t.position - (p + 1) + 1 by omega, List.getElem?_cons_succ]
  | @token p c cs kind' n ts q rest hc hl _ ih =>
    rcases List.mem_cons.mp ht with rfl | ht
    · obtain rfl : kind' = kind := hk
      simp [hkind hl]
    · obtain ⟨hp, hget⟩ := ih ht
      rw [List.getElem?_drop] at hget
      refine ⟨by omega, ?_⟩
      rwa [show t.position - p = n + (t.position - (p + n + 1)) + 1 by omega,
        List.getElem?_cons_succ]

end Splits

/-- A text that has tokens splits into them to its end. -/
theorem splits_of_scanFrom {p : ℕ} {cs : List Char} {ts : List Token}
    (h : scanFrom p cs = .ok ts) : ∃ q, Splits p cs ts q [] := by
  fun_induction scanFrom p cs generalizing ts with
  | case1 p =>
    cases h
    exact ⟨p, .done⟩
  | case2 p c cs hc ih =>
    obtain ⟨q, hq⟩ := ih h
    exact ⟨q, .blank hc hq⟩
  | case3 => cases h
  | case4 => cases h
  | case5 p c cs hc kind n hl us hs ih =>
    cases h
    obtain ⟨q, hq⟩ := ih hs
    exact ⟨q, .token (by simpa using hc) hl hq⟩

/-- Characters that are one token of the given kind if `rest` follows them. -/
def Spells (chars : List Char) (kind : Kind) (rest : List Char) : Prop :=
  ∃ c cs, chars = c :: cs ∧ Text.isBlank c = false ∧ lexeme c (cs ++ rest) = .ok (kind, cs.length)

theorem Spells.splits {chars rest : List Char} {kind : Kind} (h : Spells chars kind rest) (p : ℕ) :
    Splits p (chars ++ rest) [⟨kind, String.ofList chars, p⟩] (p + chars.length) rest := by
  obtain ⟨c, cs, rfl, hc, hl⟩ := h
  have hnext : Splits (p + cs.length + 1) ((cs ++ rest).drop cs.length) []
      (p + (c :: cs).length) rest := by
    rw [List.drop_left]
    exact .done
  have h := Splits.token hc hl hnext
  rwa [List.take_left] at h

/-- What may follow a word, a number or an operator without becoming a part of it. -/
def Boundary (rest : List Char) : Prop := ∀ c ∈ rest.head?, c = ' ' ∨ c = ')'

namespace Boundary

variable {rest : List Char}

@[simp] theorem nil : Boundary [] := by simp [Boundary]

@[simp] theorem space (rest : List Char) : Boundary (' ' :: rest) := by simp [Boundary]

@[simp] theorem closing (rest : List Char) : Boundary (')' :: rest) := by simp [Boundary]

theorem head (h : Boundary rest) {p : Char → Bool} (hs : p ' ' = false) (hc : p ')' = false) :
    ∀ c ∈ rest.head?, p c = false := by
  intro c hmem
  rcases h c hmem with rfl | rfl
  · exact hs
  · exact hc

end Boundary

/-- A run of characters is taken as a whole where a character outside the class follows. -/
lemma span_append {p : Char → Bool} {cs rest : List Char} (hcs : ∀ c ∈ cs, p c = true)
    (hrest : ∀ c ∈ rest.head?, p c = false) :
    (cs ++ rest).takeWhile p = cs ∧ (cs ++ rest).dropWhile p = rest := by
  rw [List.takeWhile_append_of_pos hcs, List.dropWhile_append_of_pos hcs]
  cases rest with
  | nil => simp
  | cons c rest => simp [hrest c rfl]

end Criteria.Token
