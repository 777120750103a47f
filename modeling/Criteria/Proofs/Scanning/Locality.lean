import Criteria.Proofs.Scanning.Extension

/-! Texts that are cut behind a token. What stands behind a token had no part in it but to end it,
and the end of the text does that as well. So a token can be read alone, and so can any front of a
text that ends where a token does. -/
namespace Criteria

namespace Text.Quoted

theorem pos_of_readFrom {pending : Bool} {cs value : List Char} {n : ℕ}
    (h : readFrom pending cs = some (value, n)) : 0 < n := by
  cases cs with
  | nil => cases h
  | cons c cs =>
    have next {pending : Bool} {f : List Char → List Char}
        (h : (readFrom pending cs).map (fun read => (f read.1, read.2 + 1)) = some (value, n)) :
        0 < n := by
      obtain ⟨_, -, heq⟩ := Option.map_eq_some_iff.mp h
      cases heq
      exact Nat.succ_pos _
    simp only [readFrom] at h
    split at h
    · exact next (f := fun text => if isEscapable c then c :: text else '\\' :: c :: text) h
    · split at h
      · cases h
        exact Nat.one_pos
      · split at h
        · exact next (f := id) h
        · exact next (f := (c :: ·)) h

theorem readFrom_of_append {pending : Bool} {cs rest value : List Char} {n : ℕ}
    (h : readFrom pending (cs ++ rest) = some (value, n)) (hn : n ≤ cs.length) :
    readFrom pending cs = some (value, n) := by
  induction cs generalizing pending value n with
  | nil => exact absurd (pos_of_readFrom h) (Nat.not_lt.mpr hn)
  | cons c cs ih =>
    have next {pending : Bool} {f : List Char → List Char}
        (h : (readFrom pending (cs ++ rest)).map (fun read => (f read.1, read.2 + 1)) =
          some (value, n)) :
        (readFrom pending cs).map (fun read => (f read.1, read.2 + 1)) = some (value, n) := by
      obtain ⟨⟨text, k⟩, hk, heq⟩ := Option.map_eq_some_iff.mp h
      cases heq
      rw [ih hk (Nat.le_of_succ_le_succ hn)]
      rfl
    rw [List.cons_append] at h
    simp only [readFrom] at h ⊢
    by_cases hp : pending = true
    · simp only [if_pos hp] at h ⊢
      exact next (f := fun text => if isEscapable c then c :: text else '\\' :: c :: text) h
    · simp only [if_neg hp] at h ⊢
      by_cases hquote : c = '"'
      · simpa only [if_pos hquote] using h
      · simp only [if_neg hquote] at h ⊢
        by_cases hslash : c = '\\'
        · simp only [if_pos hslash] at h ⊢
          exact next (f := id) h
        · simp only [if_neg hslash] at h ⊢
          exact next (f := (c :: ·)) h

end Text.Quoted

namespace Token

variable {c : Char} {cs ds rest back : List Char} {kind : Kind} {n : ℕ}

/-- A run of characters of a class that ends in a front of a text is the run of that front. -/
lemma takeWhile_of_append {p : Char → Bool} (h : ((cs ++ rest).takeWhile p).length ≤ cs.length) :
    (cs ++ rest).takeWhile p = cs.takeWhile p ∧
      (cs ++ rest).dropWhile p = cs.dropWhile p ++ rest := by
  induction cs with
  | nil =>
    rw [List.nil_append, List.length_nil, Nat.le_zero, List.length_eq_zero_iff] at h
    have hrest := List.takeWhile_append_dropWhile (p := p) (l := rest)
    rw [h, List.nil_append] at hrest
    exact ⟨h, hrest⟩
  | cons c cs ih =>
    by_cases hc : p c = true
    · simp only [List.cons_append, List.takeWhile_cons, List.dropWhile_cons, if_pos hc,
        List.length_cons, Nat.add_le_add_iff_right] at h ⊢
      exact ⟨congrArg (c :: ·) (ih h).1, (ih h).2⟩
    · simp [hc]

theorem numeral_of_append (h : (numeral (cs ++ rest)).1.length +
    (if (numeral (cs ++ rest)).2.isEmpty then 0 else (numeral (cs ++ rest)).2.length + 1) ≤
      cs.length) : numeral cs = numeral (cs ++ rest) := by
  rcases numeral_cases (cs ++ rest) with ⟨d, ds, hall, hd, hnumeral⟩ | ⟨hno, hnumeral⟩
  · have hfraction : ((d :: ds).takeWhile Char.isDigit).isEmpty = false := by simp [hd]
    simp only [hnumeral, hfraction, Bool.false_eq_true, if_false] at h
    have hlength : ((cs ++ rest).takeWhile Char.isDigit).length ≤ cs.length := by omega
    obtain ⟨htake, hdrop⟩ := takeWhile_of_append hlength
    have hsplit : (cs.takeWhile Char.isDigit).length + (cs.dropWhile Char.isDigit).length =
        cs.length := by
      rw [← List.length_append, List.takeWhile_append_dropWhile]
    rw [htake] at h hnumeral
    rw [hdrop] at hall
    rcases hcs : cs.dropWhile Char.isDigit with _ | ⟨point, _ | ⟨e, es⟩⟩
    · rw [hcs, List.length_nil] at hsplit
      omega
    · have hpos : 0 < ((d :: ds).takeWhile Char.isDigit).length := by simp [hd]
      simp only [hcs, List.length_cons, List.length_nil] at hsplit
      omega
    · simp only [hcs, List.cons_append, List.cons.injEq] at hall
      obtain ⟨rfl, rfl, rfl⟩ := hall
      simp only [hcs, List.length_cons] at hsplit
      have hlength : ((e :: es ++ rest).takeWhile Char.isDigit).length ≤ (e :: es).length := by
        rw [List.cons_append, List.length_cons]
        omega
      have hes := (takeWhile_of_append hlength).1
      rw [hnumeral, numeral, hcs]
      simp only [if_pos hd]
      rw [← List.cons_append, hes]
  · simp only [hnumeral, List.isEmpty_nil, if_true, Nat.add_zero] at h
    obtain ⟨htake, hdrop⟩ := takeWhile_of_append h
    rcases numeral_cases cs with ⟨d, ds, hcs, hd, -⟩ | ⟨-, hcs⟩
    · have hdigit := hno d (ds ++ rest) (by rw [hdrop, hcs]; rfl)
      rw [hd] at hdigit
      cases hdigit
    · rw [hcs, hnumeral, htake]

theorem number_of_append {negative : Bool} (h : number negative (cs ++ rest) = .ok (kind, n))
    (hn : n + (if negative then 0 else 1) ≤ cs.length) : number negative cs = .ok (kind, n) := by
  have hnumeral : numeral cs = numeral (cs ++ rest) := by
    refine numeral_of_append ?_
    simp only [number] at h
    split at h
    · cases h
      cases negative with
      | true => simpa using hn
      | false =>
        simp only [Bool.false_eq_true, if_false] at hn
        omega
    · cases h
  rwa [number, hnumeral]

lemma pos_of_number {d : Char} (hd : d.isDigit = true)
    (h : number true (d :: ds) = .ok (kind, n)) : 0 < n := by
  have hwhole : 0 < (numeral (d :: ds)).1.length := by
    rcases numeral_cases (d :: ds) with ⟨_, _, -, -, hnumeral⟩ | ⟨-, hnumeral⟩
    · simp [hnumeral, hd]
    · simp [hnumeral, hd]
  simp only [number] at h
  split at h
  · cases h
    exact Nat.add_pos_left hwhole _
  · cases h

/-- A token that ends in a front of a text is the token of that front. -/
theorem lexeme_of_append (h : lexeme c (cs ++ rest) = .ok (kind, n)) (hn : n ≤ cs.length) :
    lexeme c cs = .ok (kind, n) := by
  have equals {a b : Kind}
      (h : (if (cs ++ rest).head? == some '=' then (a, 1) else (b, 0)) = (kind, n)) :
      (if cs.head? == some '=' then (a, 1) else (b, 0)) = (kind, n) := by
    cases cs with
    | nil =>
      split at h
      · cases h
        exact absurd hn (by simp)
      · exact h
    | cons d cs => exact h
  by_cases hc : c ∈ marks
  · simp only [marks, List.mem_cons, List.not_mem_nil, or_false] at hc
    rcases hc with rfl | rfl | rfl | rfl | rfl | rfl | rfl | rfl
    · rwa [lexeme_opening] at h ⊢
    · rwa [lexeme_closing] at h ⊢
    · rw [lexeme_greater, Except.ok.injEq] at h ⊢
      exact equals h
    · rw [lexeme_less, Except.ok.injEq] at h ⊢
      exact equals h
    · rwa [lexeme_equal] at h ⊢
    · rw [lexeme_exclamation] at h ⊢
      cases cs with
      | nil =>
        split at h
        · cases h
          exact absurd hn (by simp)
        · cases h
      | cons d cs => exact h
    · rw [lexeme_quote] at h ⊢
      cases hread : Text.Quoted.read (cs ++ rest) with
      | none => simp [hread] at h
      | some read =>
        simp only [hread, Except.ok.injEq, Prod.mk.injEq] at h
        obtain ⟨rfl, rfl⟩ := h
        rw [Text.Quoted.read, Text.Quoted.readFrom_of_append hread hn]
    · rw [lexeme_minus] at h ⊢
      split at h
      · rename_i hdigit
        cases cs with
        | nil =>
          cases rest with
          | nil => cases hdigit
          | cons d rest => exact absurd (pos_of_number hdigit h) (Nat.not_lt.mpr hn)
        | cons d cs =>
          have hd : (d :: cs).head?.any Char.isDigit = true := hdigit
          rw [if_pos hd]
          exact number_of_append h (by simpa using hn)
      · cases h
  · rw [lexeme_of_notMem_marks hc] at h ⊢
    split at h
    · rename_i hdigit
      rw [if_pos hdigit]
      rw [← List.cons_append] at h
      exact number_of_append h (by simpa using hn)
    · rename_i hdigit
      rw [if_neg hdigit]
      split at h
      · rename_i hword
        rw [if_pos hword]
        simp only [Except.ok.injEq, Prod.mk.injEq] at h ⊢
        obtain ⟨rfl, rfl⟩ := h
        rw [(takeWhile_of_append hn).1]
        exact ⟨rfl, rfl⟩
      · cases h

/-- A token is spelled alike if less follows it. -/
theorem Spells.cut {chars : List Char} (h : Spells chars kind (rest ++ back)) :
    Spells chars kind rest := by
  obtain ⟨c, cs, rfl, hc, hl⟩ := h
  rw [← List.append_assoc] at hl
  exact ⟨c, cs, rfl, hc, lexeme_of_append hl (by simp)⟩

namespace Splits

variable {p q : ℕ} {ts : List Token}

/-- What stands behind a front that splits can be taken away. -/
theorem exists_front (h : Splits p cs ts q (rest ++ back)) :
    ∃ front, cs = front ++ back ∧ Splits p front ts q rest := by
  generalize hend : rest ++ back = all at h
  induction h with
  | done => exact ⟨rest, hend.symm, .done⟩
  | blank hc _ ih =>
    obtain ⟨front, rfl, hfront⟩ := ih hend
    exact ⟨_ :: front, rfl, .blank hc hfront⟩
  | @token p c cs kind n ts q all hc hl _ ih =>
    obtain ⟨front, hdrop, hfront⟩ := ih hend
    have hn := le_length_of_lexeme hl
    have hcs : cs = (cs.take n ++ front) ++ back := by
      rw [List.append_assoc, ← hdrop, List.take_append_drop]
    have htake : (cs.take n ++ front).take n = cs.take n := by
      rw [List.take_append_of_le_length (by simp [hn]), List.take_take, Nat.min_self]
    have hfront : Splits (p + n + 1) ((cs.take n ++ front).drop n) ts q rest := by
      rwa [List.drop_append_of_le_length (by simp [hn]), List.drop_take, Nat.sub_self,
        List.take_zero, List.nil_append]
    rw [hcs] at hl
    have hlexeme := lexeme_of_append hl (by rw [List.length_append, List.length_take]; omega)
    have htoken := Splits.token hc hlexeme hfront
    rw [htake] at htoken
    exact ⟨c :: (cs.take n ++ front), congrArg (c :: ·) hcs, htoken⟩

/-- A front ends as many places further on as it has characters. -/
theorem exists_eq_append (h : Splits p cs ts q rest) :
    ∃ front, cs = front ++ rest ∧ Splits p front ts q [] ∧ q = p + front.length := by
  obtain ⟨front, hcs, hfront⟩ : ∃ front, cs = front ++ rest ∧ Splits p front ts q [] :=
    exists_front h
  refine ⟨front, hcs, hfront, ?_⟩
  clear h hcs
  generalize hend : ([] : List Char) = back at hfront
  induction hfront with
  | done =>
    subst hend
    rfl
  | blank _ _ ih =>
    rw [ih hend, List.length_cons]
    omega
  | @token p c cs kind n ts q back _ hl _ ih =>
    have hn := le_length_of_lexeme hl
    rw [ih hend, List.length_cons, List.length_drop]
    omega

end Splits

end Token
end Criteria
