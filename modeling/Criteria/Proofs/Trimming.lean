import Criteria.Proofs.Reading.Correspondence
import Criteria.Proofs.Scanning.Extension
import Mathlib.Data.List.TakeWhile

/-! Texts with blanks around them. Such a text is read as the trimmed one is: as the same
expression, or refused for the same reason at a place that the blanks before it have moved. -/
namespace Criteria

/-- Nothing but blanks. -/
def Text.Blanks (cs : List Char) : Prop := ∀ c ∈ cs, isBlank c = true

/-- More than blanks. -/
def Text.Filled (cs : List Char) : Prop := ∃ c ∈ cs, isBlank c = false

namespace Text

variable {cs before back : List Char}

instance (cs : List Char) : Decidable (Blanks cs) :=
  List.decidableBAll _ cs

instance (cs : List Char) : Decidable (Filled cs) :=
  List.decidableBEx _ cs

theorem Filled.ne_nil (h : Filled cs) : cs ≠ [] := by
  rintro rfl
  obtain ⟨c, hc, -⟩ := h
  cases hc

theorem Blanks.reverse (h : Blanks cs) : Blanks cs.reverse :=
  fun c hc => h c (List.mem_reverse.mp hc)

theorem dropWhile_of_blanks (h : Blanks cs) : cs.dropWhile isBlank = [] := by
  rw [List.dropWhile_eq_nil_iff]
  exact h

/-- Blanks behind other characters are not reached from the front. -/
theorem Filled.dropWhile_append (h : Filled cs) (back : List Char) :
    (cs ++ back).dropWhile isBlank = cs.dropWhile isBlank ++ back := by
  obtain ⟨c, hc, hblank⟩ := h
  rw [List.dropWhile_append, if_neg]
  intro hnil
  rw [List.isEmpty_iff, List.dropWhile_eq_nil_iff] at hnil
  rw [hnil c hc] at hblank
  cases hblank

theorem trimChars_of_blanks (h : Blanks cs) : trimChars cs = [] := by
  rw [trimChars, dropWhile_of_blanks h]
  rfl

/-- Blanks around a text are trimmed with those that it has itself. -/
theorem trimChars_surrounded (hbefore : Blanks before) (hback : Blanks back) (h : Filled cs) :
    trimChars (before ++ cs ++ back) = trimChars cs := by
  rw [trimChars, List.append_assoc, List.dropWhile_append_of_pos hbefore, h.dropWhile_append,
    List.reverse_append, List.dropWhile_append_of_pos hback.reverse]
  rfl

/-- How many blanks a text begins with. -/
def indent (text : String) : ℕ := (text.toList.takeWhile isBlank).length

theorem exists_trimChars (cs : List Char) : ∃ back, Blanks back ∧
    cs = cs.takeWhile isBlank ++ trimChars cs ++ back := by
  refine ⟨((cs.dropWhile isBlank).reverse.takeWhile isBlank).reverse, fun c hc => ?_, ?_⟩
  · exact List.mem_takeWhile_imp (List.mem_reverse.mp hc)
  · rw [trimChars, List.append_assoc, ← List.reverse_append, List.takeWhile_append_dropWhile,
      List.reverse_reverse, List.takeWhile_append_dropWhile]

theorem Filled.trimChars (h : Filled cs) : Filled (trimChars cs) := by
  obtain ⟨back, hback, heq⟩ := exists_trimChars cs
  obtain ⟨c, hc, hblank⟩ := h
  rw [heq, List.mem_append, List.mem_append] at hc
  rcases hc with (hc | hc) | hc
  · rw [List.mem_takeWhile_imp hc] at hblank
    cases hblank
  · exact ⟨c, hc, hblank⟩
  · rw [hback c hc] at hblank
    cases hblank

/-- Without a quote nothing ends a string that was not ended before. -/
theorem Quoted.readFrom_append_of_notMem (h : '"' ∉ back) (pending : Bool) (cs : List Char) :
    readFrom pending (cs ++ back) = readFrom pending cs := by
  induction cs generalizing pending with
  | nil =>
    rw [List.nil_append, readFrom]
    induction back generalizing pending with
    | nil => rfl
    | cons c back ih =>
      rw [List.mem_cons, not_or] at h
      simp only [readFrom, ih h.2, if_neg (Ne.symm h.1), Option.map_none, ite_self]
  | cons c cs ih => simp only [List.cons_append, readFrom, ih]

end Text

def LexError.shift (d : ℕ) (e : LexError) : LexError := { e with position := e.position + d }

def ParseError.shift (d : ℕ) (e : ParseError) : ParseError :=
  ⟨e.position + d, e.expected, e.found.map (Token.shift d)⟩

/-- The error further on in a text. -/
def RuleTextError.shift (d : ℕ) : RuleTextError → RuleTextError
  | .lexical e => .lexical (e.shift d)
  | .grammatical e => .grammatical (e.shift d)

namespace Token

open Text (Blanks Filled)

variable {c : Char} {cs before back : List Char} {ts : List Token}

theorem scanFrom_shift (d p : ℕ) (cs : List Char) : scanFrom (p + d) cs =
    ((scanFrom p cs).map (List.map (shift d))).mapError (LexError.shift d) := by
  fun_induction scanFrom p cs with
  | case1 p =>
    rw [scanFrom]
    rfl
  | case2 p c cs hc ih =>
    rw [Nat.add_right_comm] at ih
    rw [scanFrom, if_pos hc, ih]
  | case3 p c cs hc cause hl =>
    simp only [scanFrom, hc, hl]
    rfl
  | case4 p c cs hc kind n hl e hs ih =>
    rw [hs, show p + n + 1 + d = p + d + n + 1 by omega] at ih
    simp only [scanFrom, hc, hl, ih]
    rfl
  | case5 p c cs hc kind n hl ts hs ih =>
    rw [hs, show p + n + 1 + d = p + d + n + 1 by omega] at ih
    simp only [scanFrom, hc, hl, ih]
    rfl

/-- Blanks before a text are passed over. -/
theorem scanFrom_of_blanks (h : Blanks before) (p : ℕ) (cs : List Char) :
    scanFrom p (before ++ cs) = scanFrom (p + before.length) cs := by
  induction before generalizing p with
  | nil => rfl
  | cons c before ih =>
    obtain ⟨hc, h⟩ := List.forall_mem_cons.mp h
    rw [List.cons_append, scanFrom, if_pos hc, ih h, List.length_cons, Nat.add_right_comm,
      Nat.add_assoc]

theorem apart_of_blanks (h : Blanks back) : Apart back :=
  fun c hc => .inl (h c (List.mem_of_mem_head? hc))

/-- Only a quote begins a string that does not end. -/
theorem lexeme_ne_unterminated (h : c ≠ '"') : lexeme c cs ≠ .error .unterminated := by
  have hnumber (negative : Bool) (cs : List Char) : number negative cs ≠ .error .unterminated := by
    simp only [number]
    split <;> simp
  by_cases hc : c ∈ marks
  · simp only [marks, List.mem_cons, List.not_mem_nil, or_false] at hc
    rcases hc with rfl | rfl | rfl | rfl | rfl | rfl | rfl | rfl
    · simp [lexeme_opening]
    · simp [lexeme_closing]
    · simp [lexeme_greater]
    · simp [lexeme_less]
    · simp [lexeme_equal]
    · rw [lexeme_exclamation]
      split <;> simp
    · exact absurd rfl h
    · rw [lexeme_minus]
      split
      · exact hnumber _ _
      · simp
  · rw [lexeme_of_notMem_marks hc]
    split
    · exact hnumber _ _
    · split <;> simp

theorem lexeme_append_blanks (h : Blanks back) (c : Char) (cs : List Char) :
    lexeme c (cs ++ back) = lexeme c cs := by
  by_cases hc : c = '"'
  · subst hc
    have hquote : '"' ∉ back := fun hmem => absurd (h '"' hmem) (by decide)
    rw [lexeme_quote, lexeme_quote, Text.Quoted.read,
      Text.Quoted.readFrom_append_of_notMem hquote]
  · exact lexeme_extend (apart_of_blanks h).severs (lexeme_ne_unterminated hc)

/-- Blanks behind a text add nothing to it. -/
theorem scanFrom_append_blanks (h : Blanks back) (p : ℕ) (cs : List Char) :
    scanFrom p (cs ++ back) = scanFrom p cs := by
  fun_induction scanFrom p cs with
  | case1 p =>
    rw [List.nil_append, ← List.append_nil back, scanFrom_of_blanks h, scanFrom]
  | case2 p c cs hc ih => rw [List.cons_append, scanFrom, if_pos hc, ih]
  | case3 p c cs hc cause hl =>
    rw [← lexeme_append_blanks h] at hl
    simp only [List.cons_append, scanFrom, hc, hl]
    rfl
  | case4 p c cs hc kind n hl e hs ih =>
    have hn := le_length_of_lexeme hl
    rw [← lexeme_append_blanks h] at hl
    simp only [List.cons_append, scanFrom, hc, hl, List.drop_append_of_le_length hn, ih, hs]
    rfl
  | case5 p c cs hc kind n hl ts hs ih =>
    have hn := le_length_of_lexeme hl
    rw [← lexeme_append_blanks h] at hl
    simp only [List.cons_append, scanFrom, hc, hl, List.drop_append_of_le_length hn, ih, hs,
      List.take_append_of_le_length hn]
    rfl

theorem ne_nil_of_scanFrom {p : ℕ} (h : scanFrom p cs = .ok ts) (hcs : Filled cs) : ts ≠ [] := by
  fun_induction scanFrom p cs generalizing ts with
  | case1 p => exact absurd rfl hcs.ne_nil
  | case2 p c cs hc ih =>
    obtain ⟨d, hd, hblank⟩ := hcs
    rcases List.mem_cons.mp hd with rfl | hd
    · rw [hc] at hblank
      cases hblank
    · exact ih h ⟨d, hd, hblank⟩
  | case3 => cases h
  | case4 => cases h
  | case5 =>
    cases h
    exact List.cons_ne_nil _ _

/-- The tokens of a text are those of the trimmed one, further on by the blanks before it. -/
theorem scan_eq_trim (text : String) : scan text =
    ((scan (Text.trim text)).map (List.map (shift (Text.indent text)))).mapError
      (LexError.shift (Text.indent text)) := by
  obtain ⟨back, hback, heq⟩ := Text.exists_trimChars text.toList
  have hbefore : Blanks (text.toList.takeWhile Text.isBlank) :=
    fun c hc => List.mem_takeWhile_imp hc
  rw [scan, heq, scanFrom_append_blanks hback, scanFrom_of_blanks hbefore, scanFrom_shift, scan,
    Text.trim, String.toList_ofList]
  rfl

end Token

namespace Expr.Reader

/-- Tokens further on in a text are read alike. -/
theorem read_shift (d : ℕ) (limits : Limits) {ts : List Token} (h : ts ≠ []) :
    read limits (ts.map (Token.shift d)) = (read limits ts).mapError (ParseError.shift d) := by
  have hshifted : List.Forall₂ (fun t u => u = t.shift d) ts (ts.map (Token.shift d)) :=
    List.forall₂_map_right_iff.mpr (List.forall₂_same.mpr fun _ _ => rfl)
  have hstop : Token.lastStop (ts.map (Token.shift d)) = Token.lastStop ts + d := by
    obtain ⟨last, hlast⟩ := Option.isSome_iff_exists.mp (List.getLast?_isSome.mpr h)
    rw [Token.lastStop, Token.lastStop, List.getLast?_map, hlast]
    exact Nat.add_right_comm _ _ _
  have hkind : ∀ t u : Token, u = t.shift d → t.kind = u.kind := by
    rintro t _ rfl
    rfl
  have hread := paired_read limits hkind hshifted
  rw [hstop] at hread
  generalize read limits ts = x, read limits (ts.map (Token.shift d)) = y at hread ⊢
  cases hread with
  | ok heq =>
    rw [heq]
    rfl
  | error herror =>
    cases herror with
    | token heq =>
      rw [heq]
      rfl
    | ending => rfl

end Expr.Reader

/-- A text is read as the trimmed one is, and refused for the same reason at the same place, which
is further on by the blanks before it. -/
theorem Expr.parse_eq_trim {text : String} (h : Text.Filled text.toList) :
    parse text = (parse (Text.trim text)).mapError (RuleTextError.shift (Text.indent text)) := by
  rw [parse, Token.scan_eq_trim, parse]
  cases hscan : Token.scan (Text.trim text) with
  | error e => rfl
  | ok ts =>
    have htrim : Text.Filled (Text.trim text).toList := by
      rw [Text.trim, String.toList_ofList]
      exact h.trimChars
    have hread := Reader.read_shift (Text.indent text) ⟨maxNesting, maxDepth⟩
      (Token.ne_nil_of_scanFrom hscan htrim)
    simp only [Except.map, Except.mapError, ofTokens, hread]
    cases Reader.read ⟨maxNesting, maxDepth⟩ ts <;> rfl

end Criteria
