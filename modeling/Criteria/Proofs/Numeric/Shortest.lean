import Criteria.Numeric.Shortest
import Mathlib.Data.Nat.Notation

/-! The shortest decimal of a binary number reads back as that number. Every decimal that the search
stops at has been read back, but for the last one, which is the number's exact value. -/
namespace Criteria.Binary64

theorem roundQuotient_mul (q : ℕ) {b : ℕ} (hb : 0 < b) : roundQuotient (q * b) b = q := by
  simp [roundQuotient, Nat.mul_div_cancel _ hb, Nat.ne_of_gt hb]

theorem log2_shiftLeft {n : ℕ} (hn : n ≠ 0) (k : ℕ) : (n <<< k).log2 = n.log2 + k := by
  induction k with
  | zero => rw [Nat.shiftLeft_zero, Nat.add_zero]
  | succ k ih =>
    have hk : n <<< k ≠ 0 := by
      rw [Nat.shiftLeft_eq]
      exact Nat.mul_ne_zero hn (Nat.ne_of_gt (Nat.two_pow_pos k))
    rw [Nat.shiftLeft_succ, Nat.log2_two_mul hk, ih, Nat.add_assoc]

/-- A magnitude is the exponent of its units above the fifty-two bits of the fraction, and the bits
that such units keep. -/
theorem units_split (magnitude : ℕ) : ∃ kept,
    units magnitude = kept <<< ((units magnitude).log2 - 52) ∧
      ((units magnitude).log2 - 52) <<< 52 + kept = magnitude := by
  by_cases hm : magnitude < 0x10000000000000
  · have hu : units magnitude = magnitude := if_pos hm
    have hlog : magnitude.log2 - 52 = 0 := by
      by_cases h0 : magnitude = 0
      · simp [h0]
      · have := (Nat.log2_lt (k := 52) h0).mpr hm
        omega
    exact ⟨magnitude, by simp [hu, hlog], by simp [hu, hlog]⟩
  · have hu : units magnitude = (0x10000000000000 + magnitude % 0x10000000000000) <<<
        (magnitude >>> 52 - 1) := if_neg hm
    have hfraction : (0x10000000000000 + magnitude % 0x10000000000000).log2 = 52 :=
      (Nat.log2_eq_iff (by omega)).mpr (by omega)
    have hlog : (units magnitude).log2 - 52 = magnitude >>> 52 - 1 := by
      rw [hu, log2_shiftLeft (by omega), hfraction]
      omega
    refine ⟨_, by rw [hlog]; exact hu, ?_⟩
    rw [hlog, Nat.shiftLeft_eq, Nat.shiftRight_eq_div_pow]
    omega

/-- A quotient that is the value of a magnitude has no nearer number. -/
theorem nearestMagnitude_eq {numerator denominator magnitude : ℕ} (hd : 0 < denominator)
    (hm : magnitude < infinity) (h : numerator <<< 1074 = units magnitude * denominator) :
    nearestMagnitude numerator denominator = magnitude := by
  obtain ⟨kept, hkept, hsum⟩ := units_split magnitude
  have hround (skipped : ℕ) (hu : units magnitude = kept <<< skipped) :
      roundQuotient (units magnitude * denominator) (denominator <<< skipped) = kept := by
    have heq : units magnitude * denominator = kept * (denominator <<< skipped) := by
      rw [hu, Nat.shiftLeft_eq, Nat.shiftLeft_eq, Nat.mul_assoc, Nat.mul_comm denominator]
    rw [heq]
    apply roundQuotient_mul
    rw [Nat.shiftLeft_eq]
    exact Nat.mul_pos hd (Nat.two_pow_pos skipped)
  simp only [nearestMagnitude, h, Nat.mul_div_cancel _ hd, hround _ hkept, hsum]
  exact Nat.min_eq_left (Nat.le_of_lt hm)

theorem mul_pow_five_shiftLeft (u k : ℕ) : (u * Nat.pow 5 k) <<< k = u * Nat.pow 10 k := by
  rw [Nat.shiftLeft_eq, Nat.mul_assoc]
  exact congrArg (u * ·) (Nat.mul_pow 5 2 k).symm

theorem units_pos {magnitude : ℕ} (h : magnitude ≠ 0) : 0 < units magnitude := by
  unfold units
  split
  · omega
  · rw [Nat.shiftLeft_eq]
    exact Nat.mul_pos (by omega) (Nat.two_pow_pos _)

theorem le_log2_mul_pow_five {u : ℕ} (hu : 0 < u) (k : ℕ) :
    u * Nat.pow 5 k ≠ 0 ∧ k ≤ (u * Nat.pow 5 k).log2 := by
  have hle : 2 ^ k ≤ u * Nat.pow 5 k :=
    Nat.le_trans (Nat.pow_le_pow_left (by decide) k) (Nat.le_mul_of_pos_left _ hu)
  have hpos : u * Nat.pow 5 k ≠ 0 := Nat.ne_of_gt (Nat.lt_of_lt_of_le (Nat.two_pow_pos k) hle)
  exact ⟨hpos, (Nat.le_log2 hpos).mpr hle⟩

/-- The exponent is a variable here, as its powers must not be worked out. -/
theorem exactDigits_spec (magnitude : ℕ) {k : ℕ} (hk : k = 1074) :
    exactDigits magnitude = units magnitude * Nat.pow 5 k ∧
      exactDigits magnitude <<< k = units magnitude * Nat.pow 10 k := by
  have hdigits : exactDigits magnitude = units magnitude * Nat.pow 5 k := by rw [exactDigits, ← hk]
  exact ⟨hdigits, by rw [hdigits, mul_pow_five_shiftLeft]⟩

theorem magnitude_exactDigits {magnitude : ℕ} (h0 : magnitude ≠ 0) (hm : magnitude < infinity) :
    Decimal.magnitude ⟨exactDigits magnitude, -1074⟩ = magnitude := by
  have main : ∀ k, k = 1073 →
      Decimal.magnitude ⟨exactDigits magnitude, .negSucc k⟩ = magnitude := by
    intro k hk
    obtain ⟨hdigits, hshift⟩ := exactDigits_spec magnitude (k := k + 1) (by omega)
    obtain ⟨hpos, hlog⟩ := le_log2_mul_pow_five (units_pos h0) (k + 1)
    rw [← hdigits] at hpos hlog
    simp only [Decimal.magnitude, if_neg hpos]
    rw [if_neg (by omega)]
    exact nearestMagnitude_eq (Nat.pow_pos (by decide)) hm (by rw [← hshift, hk])
  exact main 1073 rfl

/-- Whatever the search stops at reads back, if its last resort does. -/
theorem magnitude_shortestFrom (tie : Tie) {magnitude exact : ℕ}
    (h : Decimal.magnitude ⟨exact, -1074⟩ = magnitude) (dropped : ℕ) :
    (shortestFrom tie magnitude exact dropped).magnitude = magnitude := by
  induction dropped with
  | zero => exact h
  | succ dropped ih =>
    simp only [shortestFrom]
    split
    · rename_i hlow hhigh
      simp only [beq_iff_eq] at hlow hhigh
      unfold nearer
      split
      · exact hlow
      · exact hhigh
      · exact hhigh
      · split
        · exact hlow
        · exact hhigh
    · rename_i hlow _
      simpa only [beq_iff_eq] using hlow
    · rename_i _ hhigh
      simpa only [beq_iff_eq] using hhigh
    · exact ih

/-- The shortest decimal reads back. -/
theorem magnitude_shortest (tie : Tie) {magnitude : ℕ} (hm : magnitude < infinity) :
    (shortest tie magnitude).magnitude = magnitude := by
  unfold shortest
  split
  · rename_i h0
    simp [Decimal.magnitude, h0]
  · rename_i h0
    exact magnitude_shortestFrom tie (magnitude_exactDigits h0 hm) _

end Criteria.Binary64
