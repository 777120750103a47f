import Criteria.Proofs.Numeric.Shortest
import Criteria.Token.Scan

/-! The places of a decimal, all written out, are read as a decimal of the same magnitude, so the
text of a number is read as that number. -/
namespace Criteria
namespace Decimal

/-- Digits, and where there are more of them a point and a fraction. -/
structure Places (chars whole fraction : List Char) : Prop where
  whole_ne_nil : whole ≠ []
  whole_digit : ∀ c ∈ whole, c.isDigit = true
  fraction_digit : ∀ c ∈ fraction, c.isDigit = true
  written : chars = whole ++ if fraction = [] then [] else '.' :: fraction

/-- The decimal that is read from the digits on both sides of a point. -/
def ofPlaces (whole fraction : List Char) : Decimal :=
  ⟨Nat.ofDigitChars 10 (whole ++ fraction) 0, -(fraction.length : Int)⟩

lemma isDigit_of_mem_digits (n : ℕ) : ∀ c ∈ Nat.toDigits 10 n, c.isDigit = true :=
  fun _ hc => Nat.isDigit_of_mem_toDigits (by decide) (by decide) hc

lemma isDigit_of_mem_zeros {n : ℕ} {c : Char} (h : c ∈ List.replicate n '0') :
    c.isDigit = true := by
  rw [List.eq_of_mem_replicate h]
  rfl

lemma ofDigitChars_digits_zeros (n zeros : ℕ) :
    Nat.ofDigitChars 10 (Nat.toDigits 10 n ++ List.replicate zeros '0') 0 =
      n * Nat.pow 10 zeros := by
  rw [Nat.ofDigitChars_append, Nat.ofDigitChars_ten_toDigits, Nat.ofDigitChars_replicate_zero,
    Nat.mul_comm]
  rfl

lemma ofDigitChars_zeros_digits (n zeros : ℕ) :
    Nat.ofDigitChars 10 (List.replicate zeros '0' ++ Nat.toDigits 10 n) 0 = n := by
  rw [Nat.ofDigitChars_append, Nat.ofDigitChars_replicate_zero, Nat.mul_zero,
    Nat.ofDigitChars_ten_toDigits]

/-- Zeros at the end move from the exponent to the digits. -/
lemma magnitude_zeros {digits zeros : ℕ}
    (h : magnitude ⟨digits, .ofNat zeros⟩ < Binary64.infinity) :
    magnitude ⟨digits * Nat.pow 10 zeros, 0⟩ = magnitude ⟨digits, .ofNat zeros⟩ := by
  by_cases h0 : digits = 0
  · simp [magnitude, h0]
  · have hpos : digits * Nat.pow 10 zeros ≠ 0 :=
      Nat.mul_ne_zero h0 (Nat.ne_of_gt (Nat.pow_pos (by decide)))
    have hsmall : ¬ 400 ≤ zeros := by
      intro hle
      simp [magnitude, h0, hle] at h
    have h1 : Nat.pow 10 0 = 1 := rfl
    have hexp : (0 : Int) = .ofNat 0 := rfl
    rw [hexp]
    simp only [magnitude, if_neg h0, if_neg hpos, if_neg hsmall, h1, Nat.mul_one]
    exact if_neg (by decide)

/-- A decimal with its places written out can be read, and its magnitude is kept. -/
theorem places_positional (d : Decimal) : ∃ whole fraction, Places d.positional whole fraction ∧
    (d.magnitude < Binary64.infinity → (ofPlaces whole fraction).magnitude = d.magnitude) := by
  obtain ⟨n, exponent⟩ := d
  have digit := isDigit_of_mem_digits n
  cases exponent with
  | ofNat zeros =>
    by_cases h0 : n = 0
    · subst h0
      refine ⟨['0'], [], ⟨by simp, by simp, by simp, ?_⟩, fun _ => ?_⟩
      · simp [positional]
      · simp [magnitude, ofPlaces, Nat.ofDigitChars]
    · refine ⟨Nat.toDigits 10 n ++ List.replicate zeros '0', [], ⟨?_, ?_, by simp, ?_⟩, fun h => ?_⟩
      · simp [Nat.toDigits_ne_nil]
      · intro c hc
        rcases List.mem_append.mp hc with hc | hc
        · exact digit c hc
        · exact isDigit_of_mem_zeros hc
      · simp [positional, h0]
      · rw [ofPlaces, List.append_nil, ofDigitChars_digits_zeros]
        exact magnitude_zeros h
  | negSucc e =>
    by_cases hp : e + 1 < (Nat.toDigits 10 n).length
    · let point := (Nat.toDigits 10 n).length - (e + 1)
      refine ⟨(Nat.toDigits 10 n).take point, (Nat.toDigits 10 n).drop point, ⟨?_, ?_, ?_, ?_⟩,
        fun _ => ?_⟩
      · simp [point, Nat.toDigits_ne_nil]
        omega
      · exact fun c hc => digit c (List.mem_of_mem_take hc)
      · exact fun c hc => digit c (List.mem_of_mem_drop hc)
      · have hdrop : (Nat.toDigits 10 n).drop point ≠ [] := by
          simp [point]
          omega
        simp only [positional, if_pos hp, if_neg hdrop, point]
      · have hlength : ((Nat.toDigits 10 n).drop point).length = e + 1 := by
          simp [point]
          omega
        rw [ofPlaces, List.take_append_drop, hlength, Nat.ofDigitChars_ten_toDigits]
        rfl
    · refine ⟨['0'], List.replicate (e + 1 - (Nat.toDigits 10 n).length) '0' ++ Nat.toDigits 10 n,
        ⟨by simp, by simp, ?_, ?_⟩, fun _ => ?_⟩
      · intro c hc
        rcases List.mem_append.mp hc with hc | hc
        · exact isDigit_of_mem_zeros hc
        · exact digit c hc
      · simp [positional, hp, Nat.toDigits_ne_nil]
      · have hlength : (List.replicate (e + 1 - (Nat.toDigits 10 n).length) '0' ++
            Nat.toDigits 10 n).length = e + 1 := by
          simp
          omega
        have hzero : ['0'] ++ (List.replicate (e + 1 - (Nat.toDigits 10 n).length) '0' ++
            Nat.toDigits 10 n) = List.replicate (e + 1 - (Nat.toDigits 10 n).length + 1) '0' ++
              Nat.toDigits 10 n := by
          rw [List.replicate_succ]
          rfl
        rw [ofPlaces, hlength, hzero, ofDigitChars_zeros_digits]
        rfl

end Decimal
end Criteria
