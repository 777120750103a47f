import Criteria.Json.Printer
import Criteria.Proofs.Json.Numbers
import Criteria.Proofs.Numeric.Numeral

/-! Numbers in documents. The text of a number is a numeral up to the comma or the bracket behind
it, and the numeral has the value of the number, whichever notation it is written in. -/
namespace Criteria

lemma roundQuotient_mul_right (n d : ℕ) {k : ℕ} (hk : 0 < k) :
    roundQuotient (n * k) (d * k) = roundQuotient n d := by
  have hlt : d * k < 2 * (n % d) * k ↔ d < 2 * (n % d) := Nat.mul_lt_mul_right hk
  have heq : d * k = 2 * (n % d) * k ↔ d = 2 * (n % d) := Nat.mul_left_inj (Nat.ne_of_gt hk)
  simp only [roundQuotient, Nat.mul_div_mul_right _ _ hk, Nat.mul_mod_mul_right, ← Nat.mul_assoc,
    hlt, heq]

/-- The nearest number depends on the quotient alone. -/
theorem Binary64.nearestMagnitude_mul_right (n d : ℕ) {k : ℕ} (hk : 0 < k) :
    nearestMagnitude (n * k) (d * k) = nearestMagnitude n d := by
  have hunits : (n * k) <<< 1074 = n <<< 1074 * k := by
    rw [Nat.shiftLeft_eq, Nat.shiftLeft_eq, Nat.mul_right_comm]
  have hdenominator (s : ℕ) : (d * k) <<< s = d <<< s * k := by
    rw [Nat.shiftLeft_eq, Nat.shiftLeft_eq, Nat.mul_right_comm]
  simp only [nearestMagnitude, hunits, hdenominator, Nat.mul_div_mul_right _ _ hk,
    roundQuotient_mul_right _ _ hk]

lemma roundQuotient_le (n d : ℕ) : roundQuotient n d ≤ n / d + 1 := by
  simp only [roundQuotient]
  split
  · exact Nat.le_refl _
  · exact Nat.le_succ _

/-- Natural numbers of sixty-four bits are far from the infinities. -/
theorem Binary64.nearestMagnitude_lt {n : ℕ} (hn : n < UInt64.size) :
    nearestMagnitude n 1 < infinity := by
  have hlog : (n <<< 1074).log2 ≤ 1137 := by
    by_cases h0 : n = 0
    · simp [h0]
    · have hlt : n.log2 < 64 := (Nat.log2_lt h0).mpr (by simpa [UInt64.size] using hn)
      rw [log2_shiftLeft h0]
      omega
  have hlt := Nat.lt_log2_self (n := n <<< 1074)
  simp only [nearestMagnitude, Nat.div_one]
  generalize n <<< 1074 = units at hlog hlt
  obtain ⟨skipped, hskipped⟩ : ∃ skipped, units.log2 - 52 = skipped := ⟨_, rfl⟩
  have hkept : units / 1 <<< skipped < 2 ^ 53 := by
    rw [Nat.one_shiftLeft]
    refine Nat.div_lt_of_lt_mul (Nat.lt_of_lt_of_le hlt ?_)
    rw [← Nat.pow_add]
    exact Nat.pow_le_pow_right (by decide) (by omega)
  have hround := roundQuotient_le units (1 <<< skipped)
  rw [hskipped, Nat.shiftLeft_eq]
  have hinfinity : infinity = 2047 * 2 ^ 52 := rfl
  refine Nat.lt_of_le_of_lt (Nat.min_le_left _ _) ?_
  omega

namespace Decimal

lemma magnitude_natural (n : ℕ) :
    magnitude ⟨n, 0⟩ = if n = 0 then 0 else Binary64.nearestMagnitude n 1 := by
  change magnitude ⟨n, .ofNat 0⟩ = _
  have hone : n * Nat.pow 10 0 = n := Nat.mul_one n
  have hsmall : ¬ 400 ≤ 0 := by decide
  simp only [magnitude, hone, if_neg hsmall]

/-- A zero behind the point changes nothing. -/
lemma magnitude_tenfold (n : ℕ) : magnitude ⟨n * 10, -1⟩ = magnitude ⟨n, 0⟩ := by
  change magnitude ⟨n * 10, .negSucc 0⟩ = _
  rw [magnitude_natural]
  by_cases h0 : n = 0
  · simp [magnitude, h0]
  · have hpos : n * 10 ≠ 0 := by omega
    simp only [magnitude, if_neg h0, if_neg hpos]
    rw [if_neg (by omega)]
    exact Binary64.nearestMagnitude_mul_right n 1 (k := 10) (by decide)

/-- Natural numbers of sixty-four bits stand for finite numbers. -/
theorem isFinite_natural {n : ℕ} (hn : n < UInt64.size) :
    (toBinary64 false ⟨n, 0⟩).isFinite = true := by
  have hmagnitude : magnitude ⟨n, 0⟩ < Binary64.infinity := by
    rw [magnitude_natural]
    split
    · decide
    · exact Binary64.nearestMagnitude_lt hn
  rw [Binary64.isFinite, toBinary64, Binary64.magnitude_ofMagnitude, decide_eq_true_eq]
  exact Nat.lt_of_le_of_lt (Nat.mod_le _ _) hmagnitude

lemma head_toDigits_ne {n : ℕ} (h : n ≠ 0) : ∀ c ∈ (Nat.toDigits 10 n).head?, c ≠ '0' := by
  induction n using Nat.strongRecOn with
  | ind n ih =>
    rw [Nat.toDigits_eq_if (by decide)]
    split
    · simpa using h
    · rw [List.head?_append, Option.or_of_isSome (by simp)]
      exact ih (n / 10) (by omega) (by omega)

/-- A zero at the front is followed by a point if by anything. -/
lemma positional_eq_cons_zero {d : Decimal} {cs : List Char} (h : d.positional = '0' :: cs) :
    ∀ c ∈ cs.head?, c = '.' := by
  obtain ⟨n, exponent⟩ := d
  have digits {k : ℕ} (hk : k ≠ 0) (h0 : n ≠ 0) {rest : List Char} :
      (Nat.toDigits 10 n).take k ++ rest ≠ '0' :: cs := by
    intro heq
    obtain ⟨d, ds, hds⟩ := List.exists_cons_of_ne_nil (Nat.toDigits_ne_nil (n := n) (b := 10))
    obtain ⟨k, rfl⟩ := Nat.exists_eq_succ_of_ne_zero hk
    rw [hds, List.take_succ_cons, List.cons_append, List.cons.injEq] at heq
    exact head_toDigits_ne h0 d (by rw [hds]; rfl) heq.1
  cases exponent with
  | ofNat zeros =>
    by_cases h0 : n = 0
    · simp only [positional, h0, if_true, Nat.toDigits_zero, List.cons.injEq, true_and] at h
      simp [← h]
    · simp only [positional, if_neg h0] at h
      have hlength : (Nat.toDigits 10 n).length ≠ 0 := by simp
      exact absurd (by rwa [List.take_length]) (digits hlength h0)
  | negSucc e =>
    by_cases hp : e + 1 < (Nat.toDigits 10 n).length
    · have h0 : n ≠ 0 := by
        rintro rfl
        simp at hp
      simp only [positional, if_pos hp] at h
      exact absurd h (digits (by omega) h0)
    · simp only [positional, if_neg hp, List.cons_append, List.cons.injEq, true_and] at h
      simp [← h]

end Decimal

namespace Json.Token

/-- What may follow a value in a document. -/
def Stop (rest : List Char) : Prop := ∀ c ∈ rest.head?, c = ',' ∨ c = ']' ∨ c = '\x7d'

namespace Stop

variable {rest : List Char}

@[simp] theorem nil : Stop [] := by simp [Stop]

@[simp] theorem comma (rest : List Char) : Stop (',' :: rest) := by simp [Stop]

@[simp] theorem brace (rest : List Char) : Stop ('\x7d' :: rest) := by simp [Stop]

theorem ends (h : Stop rest) : Ends rest := by
  intro c hc
  rcases h c hc with rfl | rfl | rfl <;> decide

end Stop

lemma digits_toDigits (n : ℕ) : Digits (Nat.toDigits 10 n) :=
  ⟨Nat.toDigits_ne_nil, Decimal.isDigit_of_mem_digits n⟩

/-- The exponent of the scientific notation. -/
lemma exponent_toDigits (i : Int) :
    Exponent ('e' :: (if i < 0 then '-' else '+') :: Nat.toDigits 10 i.natAbs) i := by
  have hvalue := Nat.ofDigitChars_ten_toDigits (n := i.natAbs)
  split
  · have h : Exponent _ (-(Nat.ofDigitChars 10 (Nat.toDigits 10 i.natAbs) 0 : Int)) :=
      .minus (.inl rfl) (digits_toDigits _)
    rwa [hvalue, show -(i.natAbs : Int) = i by omega] at h
  · have h : Exponent _ (Nat.ofDigitChars 10 (Nat.toDigits 10 i.natAbs) 0 : Int) :=
      .plus (.inl rfl) (digits_toDigits _)
    rwa [hvalue, show (i.natAbs : Int) = i by omega] at h

/-- Characters that are a numeral behind its sign where a value may end. -/
structure Numbered (chars : List Char) (d : Decimal) (whole : Bool) : Prop where
  head : ∃ c cs, chars = c :: cs ∧ c.isDigit = true
  numeral : ∀ negative rest, Stop rest →
    numeral? negative (chars ++ rest) = some (⟨negative, d, whole⟩, chars.length)

section Notations

variable {chars whole fraction : List Char}

theorem Number.numbered {d : Decimal} {alone : Bool} (h : Number chars d alone) :
    Numbered chars d alone :=
  ⟨h.head, fun negative _ hrest => numeral?_append h hrest.ends negative⟩

theorem numbered_digits (n : ℕ) : Numbered (Nat.toDigits 10 n) ⟨n, 0⟩ true := by
  have hzero : ∀ cs, Nat.toDigits 10 n = '0' :: cs → cs = [] := by
    intro cs hcs
    by_cases h0 : n = 0
    · simpa [h0, eq_comm] using hcs
    · exact absurd rfl (Decimal.head_toDigits_ne h0 '0' (by rw [hcs]; rfl))
  have h := Number.parts ⟨digits_toDigits n, hzero⟩ .absent .absent
  simp only [List.append_nil, Nat.ofDigitChars_ten_toDigits] at h
  exact h.numbered

theorem numbered_places (hp : Decimal.Places chars whole fraction) (hne : fraction ≠ [])
    (hzero : ∀ cs, whole = '0' :: cs → cs = []) :
    Numbered chars (Decimal.ofPlaces whole fraction) false := by
  have h := Number.parts ⟨⟨hp.whole_ne_nil, hp.whole_digit⟩, hzero⟩
    (.present ⟨hne, hp.fraction_digit⟩) .absent
  rw [List.append_nil, Int.zero_sub] at h
  rw [hp.written, if_neg hne]
  exact h.numbered

theorem numbered_scientific (d : Decimal) : Numbered d.scientific d false := by
  obtain ⟨n, exponent⟩ := d
  have hdigits := Decimal.isDigit_of_mem_digits n
  obtain ⟨c, cs, hcs⟩ := List.exists_cons_of_ne_nil (Nat.toDigits_ne_nil (n := n) (b := 10))
  have hvalue := Nat.ofDigitChars_ten_toDigits (n := n)
  rw [hcs] at hdigits hvalue
  obtain ⟨hc, hfraction⟩ := List.forall_mem_cons.mp hdigits
  have hpower := exponent_toDigits (Decimal.leading ⟨n, exponent⟩)
  have hleading : Decimal.leading ⟨n, exponent⟩ - cs.length = exponent := by
    simp only [Decimal.leading, hcs, List.length_cons]
    omega
  have hwhole : Whole [c] := ⟨⟨by simp, by simpa using hc⟩, by simp⟩
  have hplaces : Fraction (if cs = [] then [] else '.' :: cs) cs := by
    split
    · rename_i hnil
      exact hnil ▸ .absent
    · rename_i hne
      exact .present ⟨hne, hfraction⟩
  have h := Number.parts hwhole hplaces hpower
  have hne {front back : List Char} {c : Char} : (front ++ c :: back).isEmpty = false :=
    List.isEmpty_eq_false_iff.mpr (by simp)
  simp only [List.singleton_append, hvalue, hleading, hne] at h
  simpa [Decimal.scientific, hcs] using h.numbered

/-- Places that are written out have no superfluous zero at the front. -/
lemma eq_nil_of_positional {d : Decimal} (hp : Decimal.Places d.positional whole fraction) :
    ∀ cs, whole = '0' :: cs → cs = [] := by
  rintro (_ | ⟨c, cs⟩) rfl
  · rfl
  · have hpoint := Decimal.positional_eq_cons_zero hp.written c rfl
    have hdigit := hp.whole_digit c (by simp)
    rw [hpoint] at hdigit
    cases hdigit

lemma isDigit_of_mem_positional {d : Decimal} (h : 0 ≤ d.exponent) :
    ∀ c ∈ d.positional, c.isDigit = true := by
  intro c hc
  obtain ⟨n, exponent⟩ := d
  cases exponent with
  | ofNat zeros =>
    simp only [Decimal.positional] at hc
    split at hc
    · exact Decimal.isDigit_of_mem_digits n c hc
    · rcases List.mem_append.mp hc with hc | hc
      · exact Decimal.isDigit_of_mem_digits n c hc
      · exact Decimal.isDigit_of_mem_zeros hc
  | negSucc e => cases h

/-- A decimal that is a whole number gets a zero behind the point. -/
theorem numbered_whole {d : Decimal} (h : 0 ≤ d.exponent) (hm : d.magnitude < Binary64.infinity) :
    ∃ d', Numbered (d.positional ++ ['.', '0']) d' false ∧ d'.magnitude = d.magnitude := by
  obtain ⟨whole, fraction, hp, hmagnitude⟩ := d.places_positional
  have hnil : fraction = [] := by
    refine Decidable.byContradiction fun hne => ?_
    have hpoint : '.' ∈ d.positional := by
      rw [hp.written, if_neg hne]
      simp
    cases isDigit_of_mem_positional h '.' hpoint
  subst hnil
  have hwhole : d.positional = whole := by simpa using hp.written
  have hplaces : Decimal.Places (d.positional ++ ['.', '0']) whole ['0'] :=
    ⟨hp.whole_ne_nil, hp.whole_digit, by simp, by simp [hwhole]⟩
  refine ⟨_, numbered_places hplaces (by simp) (eq_nil_of_positional hp), ?_⟩
  have htenfold : Decimal.ofPlaces whole ['0'] = ⟨Nat.ofDigitChars 10 whole 0 * 10, -1⟩ := by
    simp [Decimal.ofPlaces, Nat.ofDigitChars_append, Nat.ofDigitChars_cons, Nat.mul_comm]
  rw [htenfold, Decimal.magnitude_tenfold, ← hmagnitude hm]
  simp [Decimal.ofPlaces]

theorem numbered_fraction {d : Decimal} (h : d.exponent < 0)
    (hm : d.magnitude < Binary64.infinity) :
    ∃ d', Numbered d.positional d' false ∧ d'.magnitude = d.magnitude := by
  obtain ⟨whole, fraction, hp, hmagnitude⟩ := d.places_positional
  refine ⟨_, numbered_places hp ?_ (eq_nil_of_positional hp), hmagnitude hm⟩
  rintro rfl
  have hpoint : '.' ∈ d.positional := by
    obtain ⟨n, exponent⟩ := d
    cases exponent with
    | ofNat zeros => exact absurd h (by simp)
    | negSucc e =>
      simp only [Decimal.positional]
      split <;> simp
  have hwhole : d.positional = whole := by simpa using hp.written
  rw [hwhole] at hpoint
  cases hp.whole_digit '.' hpoint

/-- Every notation of a decimal is read as one of the same magnitude. -/
theorem numbered_text (negative : Bool) {d : Decimal} (hm : d.magnitude < Binary64.infinity) :
    ∃ chars d', Numeral.text ⟨negative, d, false⟩ = signed negative chars ∧
      Numbered chars d' false ∧ d'.magnitude = d.magnitude := by
  simp only [Numeral.text, Bool.false_eq_true, if_false]
  split
  · exact ⟨_, d, rfl, numbered_scientific d, rfl⟩
  · split
    · rename_i h
      obtain ⟨d', hd', heq⟩ := numbered_whole h hm
      exact ⟨_, d', rfl, hd', heq⟩
    · rename_i h
      obtain ⟨d', hd', heq⟩ := numbered_fraction (Int.not_le.mp h) hm
      exact ⟨_, d', rfl, hd', heq⟩

/-- The text of a finite number is read with all its bits. -/
theorem numbered_shortest {x : Binary64} (hx : x.isFinite = true) :
    ∃ chars d, (Numeral.ofBinary64 x).text = signed x.negative chars ∧ Numbered chars d false ∧
      d.toBinary64 x.negative = x := by
  have hfinite : x.magnitude < Binary64.infinity := by simpa [Binary64.isFinite] using hx
  have hshortest := Binary64.magnitude_shortest .even hfinite
  obtain ⟨chars, d, htext, hd, hmagnitude⟩ := numbered_text x.negative (hshortest.symm ▸ hfinite)
  refine ⟨chars, d, htext, hd, ?_⟩
  rw [Decimal.toBinary64, hmagnitude, hshortest, Binary64.ofMagnitude_self]

end Notations
end Json.Token
end Criteria
