import Criteria.Proofs.Scanning.Locality
import Criteria.Proofs.Trimming

/-! Texts that are put together with blanks between them, and the place where a text stops being
made of tokens. Blanks are a boundary that no token sees beyond, so the parts have the tokens that
they have alone. An error stands behind a front that has tokens, and is the error of every longer
text. -/
namespace Criteria

namespace Text.Quoted

/-- The number of backslashes that a text ends with. -/
def slashes (cs : List Char) : ℕ := (cs.reverse.takeWhile (· == '\\')).length

/-- Whatever quote there is stands behind an odd number of backslashes, so none ends a string. -/
def Unclosed (cs : List Char) : Prop :=
  ∀ front back, cs = front ++ '"' :: back → slashes front % 2 = 1

lemma slashes_concat (cs : List Char) (c : Char) :
    slashes (cs ++ [c]) = if c = '\\' then slashes cs + 1 else 0 := by
  by_cases hc : c = '\\'
  · simp [slashes, hc]
  · simp [slashes, hc]

lemma unclosed_cons {done cs : List Char} {c : Char}
    (hquote : c = '"' → slashes done % 2 = 1)
    (h : ∀ front back, cs = front ++ '"' :: back → slashes (done ++ [c] ++ front) % 2 = 1) :
    ∀ front back, c :: cs = front ++ '"' :: back → slashes (done ++ front) % 2 = 1 := by
  intro front back heq
  cases front with
  | nil =>
    cases heq
    rw [List.append_nil]
    exact hquote rfl
  | cons d front =>
    cases heq
    rw [← List.singleton_append, ← List.append_assoc]
    exact h front back rfl

/-- A string that is not ended, of which a part has been read. A backslash is pending if that part
ends with an odd number of them. -/
theorem unclosed_of_readFrom {pending : Bool} {done cs : List Char}
    (hpending : pending = true ↔ slashes done % 2 = 1) (h : readFrom pending cs = none) :
    ∀ front back, cs = front ++ '"' :: back → slashes (done ++ front) % 2 = 1 := by
  induction cs generalizing pending done with
  | nil => simp
  | cons c cs ih =>
    simp only [readFrom] at h
    by_cases hp : pending = true
    · have hdone := hpending.mp hp
      simp only [if_pos hp, Option.map_eq_none_iff] at h
      refine unclosed_cons (fun _ => hdone) (ih ?_ h)
      rw [slashes_concat]
      split
      · simp only [Bool.false_eq_true, false_iff]
        omega
      · simp
    · have hdone : slashes done % 2 ≠ 1 := fun hodd => hp (hpending.mpr hodd)
      simp only [if_neg hp] at h
      split at h
      · cases h
      · rename_i hquote
        refine unclosed_cons (fun hc => absurd hc hquote) ?_
        split at h
        · rename_i hslash
          refine ih ?_ (Option.map_eq_none_iff.mp h)
          rw [slashes_concat, if_pos hslash]
          simp only [true_iff]
          omega
        · rename_i hslash
          refine ih ?_ (Option.map_eq_none_iff.mp h)
          rw [slashes_concat, if_neg hslash]
          simp

theorem unclosed_of_read {cs : List Char} (h : read cs = none) : Unclosed cs := by
  have hpending : false = true ↔ slashes [] % 2 = 1 := by simp [slashes]
  exact unclosed_of_readFrom hpending h

end Text.Quoted

namespace Token

/-- Why no token begins with a character, as far as the text goes on. -/
inductive Refuses : Char → List Char → LexError.Cause → Prop
  | unexpected {c cs} : Refuses c cs (.unexpected c)
  | unterminated {cs} (h : Text.Quoted.Unclosed cs) : Refuses '"' cs .unterminated
  | outOfRange {c cs} (hc : c = '-' ∨ c.isDigit = true) : Refuses c cs .outOfRange

variable {p q : ℕ} {c : Char} {cs back : List Char} {ts : List Token}

lemma eq_outOfRange_of_number {negative : Bool} {cause : LexError.Cause}
    (h : number negative cs = .error cause) : cause = .outOfRange := by
  simp only [number] at h
  split at h <;> cases h
  rfl

theorem refuses_of_lexeme {cause : LexError.Cause} (h : lexeme c cs = .error cause) :
    Refuses c cs cause := by
  by_cases hc : c ∈ marks
  · simp only [marks, List.mem_cons, List.not_mem_nil, or_false] at hc
    rcases hc with rfl | rfl | rfl | rfl | rfl | rfl | rfl | rfl
    · rw [lexeme_opening] at h
      cases h
    · rw [lexeme_closing] at h
      cases h
    · rw [lexeme_greater] at h
      cases h
    · rw [lexeme_less] at h
      cases h
    · rw [lexeme_equal] at h
      cases h
    · rw [lexeme_exclamation] at h
      split at h <;> cases h
      exact .unexpected
    · rw [lexeme_quote] at h
      split at h <;> cases h
      exact .unterminated (Text.Quoted.unclosed_of_read ‹_›)
    · rw [lexeme_minus] at h
      split at h
      · rw [eq_outOfRange_of_number h]
        exact .outOfRange (.inl rfl)
      · cases h
        exact .unexpected
  · rw [lexeme_of_notMem_marks hc] at h
    split at h
    · rename_i hdigit
      rw [eq_outOfRange_of_number h]
      exact .outOfRange (.inr hdigit)
    · split at h <;> cases h
      exact .unexpected

/-- Where a text stops being made of tokens. -/
theorem exists_splits_of_scanFrom {e : LexError} (h : scanFrom p cs = .error e) :
    ∃ ts c rest, Splits p cs ts e.position (c :: rest) ∧ Text.isBlank c = false ∧
      lexeme c rest = .error e.cause := by
  fun_induction scanFrom p cs with
  | case1 => cases h
  | case2 p c cs hc ih =>
    obtain ⟨ts, d, rest, hsplits, hd⟩ := ih h
    exact ⟨ts, d, rest, .blank hc hsplits, hd⟩
  | case3 p c cs hc cause hl =>
    cases h
    exact ⟨[], c, cs, .done, by simpa using hc, hl⟩
  | case4 p c cs hc kind n hl e' hs ih =>
    cases h
    obtain ⟨ts, d, rest, hsplits, hd⟩ := ih hs
    exact ⟨_, d, rest, .token (by simpa using hc) hl hsplits, hd⟩
  | case5 => cases h

lemma apart_of_blanks_append {blanks : List Char} (h : Text.Blanks blanks) (hne : blanks ≠ [])
    (more : List Char) : Apart (blanks ++ more) := by
  obtain ⟨c, blanks, rfl⟩ := List.exists_cons_of_ne_nil hne
  intro d hd
  cases hd
  exact .inl (h c List.mem_cons_self)

/-- The tokens of a text come first, and what follows behind blanks has its own. -/
theorem scanFrom_append (h : scanFrom 0 cs = .ok ts) {blanks : List Char}
    (hblanks : Text.Blanks blanks) (hne : blanks ≠ []) (more : List Char) :
    scanFrom 0 (cs ++ blanks ++ more) =
      ((scanFrom 0 more).map fun us => ts ++ us.map (shift (cs ++ blanks).length)).mapError
        (LexError.shift (cs ++ blanks).length) := by
  obtain ⟨q, hsplits⟩ := splits_of_scanFrom h
  obtain ⟨front, hfront, -, hq⟩ := hsplits.exists_eq_append
  rw [List.append_nil] at hfront
  subst hfront
  have hplace : q + blanks.length = 0 + (cs ++ blanks).length := by
    rw [hq, List.length_append]
    omega
  have hall := hsplits.extend (apart_of_blanks_append hblanks hne more).severs
  rw [List.append_assoc, hall.scanFrom_eq, List.nil_append, scanFrom_of_blanks hblanks, hplace,
    scanFrom_shift]
  cases scanFrom 0 more <;> rfl

/-- An error that is not for want of a quote is the error of every longer text, if what comes behind
it begins with a blank. -/
theorem scanFrom_append_error {e : LexError} (h : scanFrom p cs = .error e)
    (hcause : e.cause ≠ .unterminated) (hback : Apart back) :
    scanFrom p (cs ++ back) = .error e := by
  obtain ⟨ts, c, rest, hsplits, hc, hl⟩ := exists_splits_of_scanFrom h
  have hne : lexeme c rest ≠ .error .unterminated := by
    rw [hl]
    simpa using hcause
  rw [← lexeme_extend hback.severs hne] at hl
  rw [(hsplits.extend hback.severs).scanFrom_eq, List.cons_append, scanFrom]
  simp only [hc, Bool.false_eq_true, if_false, hl]
  rfl

/-- What a text and the place where it stops being made of tokens have to do with each other. -/
structure FailsAt (text : String) (e : LexError) : Prop where
  inside : e.position < text.length
  /-- What stands before the place is made of tokens. -/
  front : ∃ ts, scan (String.ofList (text.toList.take e.position)) = .ok ts
  unexpected : ∀ c, e.cause = .unexpected c → text.toList[e.position]? = some c
  /-- A quote stands at the place, and none behind it ends the string. -/
  unterminated : e.cause = .unterminated → ∃ rest,
    text.toList.drop e.position = '"' :: rest ∧ Text.Quoted.Unclosed rest
  /-- A number begins at the place. -/
  outOfRange : e.cause = .outOfRange → ∃ c, text.toList[e.position]? = some c ∧
    (c = '-' ∨ c.isDigit = true)
  /-- Nothing behind a blank changes the error, but for a quote that could be closed. -/
  lasting : e.cause ≠ .unterminated → ∀ blanks more : String, blanks ≠ "" →
    Text.Blanks blanks.toList → scan (text ++ blanks ++ more) = .error e

theorem failsAt_of_scan {text : String} {e : LexError} (h : scan text = .error e) :
    FailsAt text e := by
  obtain ⟨ts, c, rest, hsplits, -, hl⟩ := exists_splits_of_scanFrom h
  obtain ⟨front, hfront, htokens, hposition⟩ := hsplits.exists_eq_append
  rw [Nat.zero_add] at hposition
  have hrefuses := refuses_of_lexeme hl
  have hdrop : text.toList.drop e.position = c :: rest := by
    rw [hfront, hposition, List.drop_left]
  have hget : text.toList[e.position]? = some c := by
    rw [← List.head?_drop, hdrop, List.head?_cons]
  refine ⟨?inside, ⟨ts, ?front⟩, fun d hd => ?unexpected, fun hd => ?unterminated,
    fun hd => ⟨c, hget, ?outOfRange⟩, fun hcause blanks more hne hblanks => ?lasting⟩
  case inside =>
    rw [← String.length_toList]
    exact (List.getElem?_eq_some_iff.mp hget).1
  case front =>
    rw [hfront, hposition, List.take_left, scan, String.toList_ofList]
    exact htokens.scanFrom_eq_ok
  case unexpected =>
    rw [hd] at hrefuses
    cases hrefuses
    exact hget
  case unterminated =>
    rw [hd] at hrefuses
    cases hrefuses with
    | unterminated hunclosed => exact ⟨rest, hdrop, hunclosed⟩
  case outOfRange =>
    rw [hd] at hrefuses
    cases hrefuses with
    | outOfRange hc => exact hc
  case lasting =>
    rw [scan, String.append_assoc, String.toList_append, String.toList_append]
    exact scanFrom_append_error h hcause (apart_of_blanks_append hblanks (by simpa using hne) _)

/-- Splitting into tokens respects blanks. What follows a text of tokens and blanks has the tokens,
or the error, that it has alone, moved by what stands before it. An error comes from the first place
where no token can be read. -/
theorem scan_compositional (text : String) :
    (∀ ts, scan text = .ok ts → ∀ blanks more : String, blanks ≠ "" → Text.Blanks blanks.toList →
      scan (text ++ blanks ++ more) =
        ((scan more).map fun us => ts ++ us.map (shift (text ++ blanks).length)).mapError
          (LexError.shift (text ++ blanks).length)) ∧
    ∀ e, scan text = .error e → FailsAt text e := by
  refine ⟨fun ts hscan blanks more hne hblanks => ?_, fun e => failsAt_of_scan⟩
  have happend := scanFrom_append hscan hblanks (by simpa using hne) more.toList
  rw [← String.toList_append, String.length_toList] at happend
  rw [scan, String.toList_append]
  exact happend

/-- A string that is not ended, alone and behind tokens and two blanks, and an exclamation mark with
nothing behind it. -/
theorem scan_compositional_open :
    scan "=\"\\\"" = .error ⟨1, .unterminated⟩ ∧
    scan ("a>" ++ "\t\u2003" ++ "=\"\\\"") = .error ⟨5, .unterminated⟩ ∧
    FailsAt "=\"\\\"" ⟨1, .unterminated⟩ ∧ FailsAt "a !" ⟨2, .unexpected '!'⟩ := by
  have hopen : scan "=\"\\\"" = .error ⟨1, .unterminated⟩ := by decide +kernel
  have htokens : scan "a>" =
      .ok [⟨.identifier "a", "a", 0⟩, ⟨.comparison .greater, ">", 1⟩] := by decide +kernel
  refine ⟨hopen, ?_, (scan_compositional _).2 _ hopen,
    (scan_compositional _).2 _ (by decide +kernel)⟩
  rw [(scan_compositional "a>").1 _ htokens "\t\u2003" _ (by decide) (by decide +kernel), hopen]
  decide +kernel

/-- Without a blank the next character can complete what was no token. -/
example : scan "!" = .error ⟨0, .unexpected '!'⟩ ∧
    scan ("!" ++ "=") = .ok [⟨.comparison .notEqual, "!=", 0⟩] := by
  decide +kernel

end Token
end Criteria
