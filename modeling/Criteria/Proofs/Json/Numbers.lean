import Criteria.Json.Token
import Criteria.Proofs.Scanning.Splits

/-! The notation of numbers in documents: digits without a superfluous zero in front, then a
fraction and an exponent, which may both be absent. A number is read up to a character that could
not belong to it, and what is read is always a number. -/
namespace Criteria.Json.Token

def Digits (chars : List Char) : Prop := chars ≠ [] ∧ ∀ c ∈ chars, c.isDigit = true

/-- Digits that begin with zero only if they are zero. -/
def Whole (chars : List Char) : Prop := Digits chars ∧ ∀ cs, chars = '0' :: cs → cs = []

/-- A fraction and its digits. -/
inductive Fraction : List Char → List Char → Prop
  | absent : Fraction [] []
  | present {digits} (h : Digits digits) : Fraction ('.' :: digits) digits

/-- An exponent and its value. -/
inductive Exponent : List Char → Int → Prop
  | absent : Exponent [] 0
  | bare {c digits} (hc : c = 'e' ∨ c = 'E') (h : Digits digits) :
      Exponent (c :: digits) (Nat.ofDigitChars 10 digits 0)
  | plus {c digits} (hc : c = 'e' ∨ c = 'E') (h : Digits digits) :
      Exponent (c :: '+' :: digits) (Nat.ofDigitChars 10 digits 0)
  | minus {c digits} (hc : c = 'e' ∨ c = 'E') (h : Digits digits) :
      Exponent (c :: '-' :: digits) (-Nat.ofDigitChars 10 digits 0)

/-- A number without its sign, the decimal that it stands for, and whether it is digits alone. -/
inductive Number : List Char → Decimal → Bool → Prop
  | parts {whole fraction places power e} (hw : Whole whole) (hf : Fraction fraction places)
      (he : Exponent power e) :
      Number (whole ++ (fraction ++ power))
        ⟨Nat.ofDigitChars 10 (whole ++ places) 0, e - places.length⟩ (fraction ++ power).isEmpty

/-- What no number goes on with. -/
def Ends (rest : List Char) : Prop :=
  ∀ c ∈ rest.head?, c.isDigit = false ∧ c ≠ '.' ∧ c ≠ 'e' ∧ c ≠ 'E'

variable {cs chars rest digits whole fraction places power : List Char} {d : Decimal} {e : Int}
  {alone : Bool} {n k : ℕ}

namespace Ends

theorem isDigit_head (h : Ends rest) : ∀ c ∈ rest.head?, c.isDigit = false := fun c hc => (h c hc).1

theorem head_ne_point (h : Ends rest) : rest.head? ≠ some '.' := fun hc => (h '.' hc).2.1 rfl

end Ends

/-- The digits at the front of a text end in front of something else. -/
lemma exists_eq_takeWhile_append (cs : List Char) : ∃ rest, cs = cs.takeWhile Char.isDigit ++ rest ∧
    (∀ c ∈ cs.takeWhile Char.isDigit, c.isDigit = true) ∧ ∀ c ∈ rest.head?, c.isDigit = false := by
  refine ⟨cs.dropWhile Char.isDigit, List.takeWhile_append_dropWhile.symm, ?_, ?_⟩
  · exact fun c hc => List.all_eq_true.mp List.all_takeWhile c hc
  · intro c hc
    have h := List.head?_dropWhile_not Char.isDigit cs
    rw [Option.mem_def.mp hc] at h
    exact h

/-- Where digits are asked for, there are some. -/
lemma exists_digits_of_eq_some {α : Type} {x y : α}
    (h : (if (cs.takeWhile Char.isDigit).isEmpty then none else some x) = some y) :
    x = y ∧ ∃ rest, cs = cs.takeWhile Char.isDigit ++ rest ∧ Digits (cs.takeWhile Char.isDigit) ∧
      ∀ c ∈ rest.head?, c.isDigit = false := by
  obtain ⟨rest, hcs, hdigits, hrest⟩ := exists_eq_takeWhile_append cs
  split at h
  · cases h
  · rename_i hne
    rw [List.isEmpty_iff] at hne
    exact ⟨Option.some.inj h, rest, hcs, ⟨hne, hdigits⟩, hrest⟩

section Parts

lemma whole?_append (h : Whole whole) (hrest : ∀ c ∈ rest.head?, c.isDigit = false) :
    whole? (whole ++ rest) = some whole := by
  obtain ⟨⟨hne, hdigits⟩, hzero⟩ := h
  obtain ⟨d, ds, rfl⟩ := List.exists_cons_of_ne_nil hne
  have hspan := (Criteria.Token.span_append hdigits hrest).1
  simp only [whole?, hspan]
  rw [if_neg]
  rintro ⟨rfl, hds⟩
  exact hds (hzero ds rfl)

lemma exists_of_whole? (h : whole? cs = some whole) : ∃ rest, cs = whole ++ rest ∧ Whole whole ∧
    ∀ c ∈ rest.head?, c.isDigit = false := by
  obtain ⟨rest, hcs, hdigits, hrest⟩ := exists_eq_takeWhile_append cs
  simp only [whole?] at h
  split at h
  · cases h
  · rename_i d ds heq
    split at h
    · cases h
    · rename_i hzero
      cases h
      refine ⟨rest, hcs, ⟨⟨by simp [heq], hdigits⟩, fun zeros hzeros => ?_⟩, hrest⟩
      rw [heq, List.cons.injEq] at hzeros
      exact Decidable.byContradiction fun hne => hzero ⟨hzeros.1, by rwa [hzeros.2]⟩

lemma fraction?_of_head_ne (h : rest.head? ≠ some '.') : fraction? rest = some ([], 0) := by
  unfold fraction?
  split
  · simp at h
  · rfl

lemma fraction?_append (h : Fraction fraction places) (hpoint : rest.head? ≠ some '.')
    (hrest : ∀ c ∈ rest.head?, c.isDigit = false) :
    fraction? (fraction ++ rest) = some (places, fraction.length) := by
  cases h with
  | absent => exact fraction?_of_head_ne hpoint
  | present h =>
    have hspan := (Criteria.Token.span_append h.2 hrest).1
    simp [fraction?, hspan, h.1]

lemma exists_of_fraction? (h : fraction? cs = some (places, n)) :
    ∃ fraction rest, cs = fraction ++ rest ∧ n = fraction.length ∧ Fraction fraction places ∧
      ((∀ c ∈ cs.head?, c.isDigit = false) → ∀ c ∈ rest.head?, c.isDigit = false) := by
  unfold fraction? at h
  split at h
  · obtain ⟨heq, rest, hbehind, hdigits, hrest⟩ := exists_digits_of_eq_some h
    cases heq
    exact ⟨_, rest, congrArg ('.' :: ·) hbehind, rfl, .present hdigits, fun _ => hrest⟩
  · cases h
    exact ⟨[], cs, rfl, rfl, .absent, id⟩

lemma exponent?_of_ends (h : Ends rest) : exponent? rest = some (0, 0) := by
  cases rest with
  | nil => rfl
  | cons c rest =>
    obtain ⟨-, -, hsmall, hcapital⟩ := h c rfl
    simp [exponent?, hsmall, hcapital]

lemma head_ne_of_digits (h : Digits digits) {mark : Char} (hmark : mark.isDigit = false) :
    ∀ cs, digits ++ rest ≠ mark :: cs := by
  rintro cs heq
  obtain ⟨d, ds, rfl⟩ := List.exists_cons_of_ne_nil h.1
  have hd := h.2 d List.mem_cons_self
  rw [List.cons_append, List.cons.injEq] at heq
  rw [heq.1, hmark] at hd
  cases hd

lemma exponent?_append (h : Exponent power e) (hrest : Ends rest) :
    exponent? (power ++ rest) = some (e, power.length) := by
  cases h with
  | absent => exact exponent?_of_ends hrest
  | @bare c digits hc h =>
    have hspan := (Criteria.Token.span_append h.2 hrest.isDigit_head).1
    simp only [exponent?, List.cons_append, if_pos hc]
    split
    · rename_i heq
      exact absurd heq (head_ne_of_digits h rfl _)
    · rename_i heq
      exact absurd heq (head_ne_of_digits h rfl _)
    · simp [hspan, h.1, Nat.add_comm]
  | plus hc h | minus hc h =>
    have hspan := (Criteria.Token.span_append h.2 hrest.isDigit_head).1
    simp only [exponent?, List.cons_append, if_pos hc, hspan, List.isEmpty_iff, if_neg h.1]
    exact congrArg (fun n => some (_, n)) (Nat.add_comm 2 _)

lemma exists_of_exponent? (h : exponent? cs = some (e, n)) :
    ∃ power rest, cs = power ++ rest ∧ n = power.length ∧ Exponent power e ∧
      ((∀ c ∈ cs.head?, c.isDigit = false) → ∀ c ∈ rest.head?, c.isDigit = false) := by
  unfold exponent? at h
  dsimp only at h
  split at h
  · rename_i c behind
    split at h
    · rename_i hc
      split at h
      all_goals
        obtain ⟨heq, rest, hbehind, hdigits, hrest⟩ := exists_digits_of_eq_some h
        cases heq
      · exact ⟨_, rest, congrArg (c :: '-' :: ·) hbehind, Nat.add_comm 2 _, .minus hc hdigits,
          fun _ => hrest⟩
      · exact ⟨_, rest, congrArg (c :: '+' :: ·) hbehind, Nat.add_comm 2 _, .plus hc hdigits,
          fun _ => hrest⟩
      · exact ⟨_, rest, congrArg (c :: ·) hbehind, Nat.add_comm 1 _, .bare hc hdigits,
          fun _ => hrest⟩
    · cases h
      exact ⟨[], _, rfl, rfl, .absent, id⟩
  · cases h
    exact ⟨[], [], rfl, rfl, .absent, id⟩

end Parts

lemma Fraction.isDigit_head (h : Fraction fraction places)
    (hrest : ∀ c ∈ rest.head?, c.isDigit = false) :
    ∀ c ∈ (fraction ++ rest).head?, c.isDigit = false := by
  cases h with
  | absent => exact hrest
  | present h => simp

lemma Exponent.head (h : Exponent power e) (hrest : Ends rest) :
    (∀ c ∈ (power ++ rest).head?, c.isDigit = false) ∧ (power ++ rest).head? ≠ some '.' := by
  cases h with
  | absent => exact ⟨hrest.isDigit_head, hrest.head_ne_point⟩
  | bare hc | plus hc | minus hc => rcases hc with rfl | rfl <;> simp

lemma Number.head (h : Number chars d alone) : ∃ c cs, chars = c :: cs ∧ c.isDigit = true := by
  obtain ⟨⟨⟨hne, hdigits⟩, -⟩, -, -⟩ := h
  obtain ⟨c, cs, rfl⟩ := List.exists_cons_of_ne_nil hne
  exact ⟨c, _, rfl, hdigits c List.mem_cons_self⟩

lemma isEmpty_append_eq (cs ds : List Char) :
    (cs.length + ds.length == 0) = (cs ++ ds).isEmpty := by
  rw [Bool.eq_iff_iff, beq_iff_eq, List.isEmpty_iff_length_eq_zero, List.length_append]

/-- A number is read to its end, and as the decimal that it stands for. -/
theorem numeral?_append (h : Number chars d alone) (hrest : Ends rest) (negative : Bool) :
    numeral? negative (chars ++ rest) = some (⟨negative, d, alone⟩, chars.length) := by
  obtain ⟨hw, hf, he⟩ := h
  obtain ⟨hdigit, hpoint⟩ := he.head hrest
  simp only [numeral?, List.append_assoc, whole?_append hw (hf.isDigit_head hdigit), List.drop_left,
    fraction?_append hf hpoint hdigit, exponent?_append he hrest, bind, Option.bind, pure,
    isEmpty_append_eq, List.length_append, Nat.add_assoc]

/-- What is read as a number is one, and no further digit follows. -/
theorem exists_of_numeral? {negative : Bool} {n : Numeral}
    (h : numeral? negative cs = some (n, k)) : ∃ chars rest, cs = chars ++ rest ∧
      k = chars.length ∧ n.negative = negative ∧ Number chars n.decimal n.whole ∧
      ∀ c ∈ rest.head?, c.isDigit = false := by
  simp only [numeral?, Option.bind_eq_bind, Option.bind_eq_some_iff, Prod.exists, pure,
    Option.some.injEq, Prod.mk.injEq] at h
  obtain ⟨whole, hwhole, places, taken, hfraction, e, taken', hexponent, rfl, rfl⟩ := h
  obtain ⟨behind, rfl, hw, hbehind⟩ := exists_of_whole? hwhole
  rw [List.drop_left] at hfraction hexponent
  obtain ⟨fraction, behind, rfl, rfl, hf, hdigit⟩ := exists_of_fraction? hfraction
  rw [List.drop_left] at hexponent
  obtain ⟨power, rest, rfl, rfl, he, hrest⟩ := exists_of_exponent? hexponent
  refine ⟨whole ++ (fraction ++ power), rest, by simp, by simp [Nat.add_assoc], rfl, ?_,
    hrest (hdigit hbehind)⟩
  rw [isEmpty_append_eq]
  exact .parts hw hf he

end Criteria.Json.Token
