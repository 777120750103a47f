import Criteria.Proofs.Scanning.Lossless

/-! String literals at any place of a text. What stands between the quotes is spelled in several
ways, of which the canonical one escapes all it can. Each spelling is read up to its own last quote,
and what follows that quote has no part in it. -/
namespace Criteria

namespace Text.Quoted

/-- What characters between quotes stand for. A backslash in front of a quote or a backslash is
dropped, and in front of any other character it stands for itself. -/
inductive Means : List Char → List Char → Prop
  | nil : Means [] []
  | plain {c cs s} (hquote : c ≠ '"') (hslash : c ≠ '\\') (h : Means cs s) :
      Means (c :: cs) (c :: s)
  | escaped {c cs s} (hc : c = '"' ∨ c = '\\') (h : Means cs s) : Means ('\\' :: c :: cs) (c :: s)
  | kept {c cs s} (hquote : c ≠ '"') (hslash : c ≠ '\\') (h : Means cs s) :
      Means ('\\' :: c :: cs) ('\\' :: c :: s)

variable {cs body value : List Char} {n : ℕ}

lemma isEscapable_iff (c : Char) : isEscapable c = true ↔ c = '"' ∨ c = '\\' := by
  simp [isEscapable]

/-- The canonical spelling stands for the text that it was made from. -/
theorem means_escape (s : List Char) : Means (escape s) s := by
  induction s with
  | nil => exact .nil
  | cons c s ih =>
    by_cases hc : isEscapable c = true
    · simp only [escape, if_pos hc]
      exact .escaped ((isEscapable_iff c).mp hc) ih
    · simp only [escape, if_neg hc]
      rw [isEscapable_iff, not_or] at hc
      exact .plain hc.1 hc.2 ih

/-- A spelling is read to its end, which is the quote behind it. -/
theorem Means.read (h : Means body value) (rest : List Char) :
    read (body ++ '"' :: rest) = some (value, body.length + 1) := by
  unfold Quoted.read
  induction h with
  | nil => rfl
  | plain hquote hslash _ ih => simp [readFrom, hquote, hslash, ih]
  | escaped hc _ ih => simp [readFrom, (isEscapable_iff _).mpr hc, ih]
  | @kept c _ _ hquote hslash _ ih =>
    have hc : isEscapable c = false := by
      rw [← Bool.not_eq_true, isEscapable_iff, not_or]
      exact ⟨hquote, hslash⟩
    simp [readFrom, hc, ih]

/-- What has been read is a spelling and the quote behind it. A pending backslash is the first
character of the spelling. -/
theorem exists_means_of_readFrom {pending : Bool} (h : readFrom pending cs = some (value, n)) :
    ∃ body rest, cs = body ++ '"' :: rest ∧ n = body.length + 1 ∧
      Means (if pending then '\\' :: body else body) value := by
  induction cs generalizing pending value n with
  | nil => cases h
  | cons c cs ih =>
    simp only [readFrom] at h
    split at h
    · rename_i hpending
      obtain ⟨⟨text, k⟩, hread, heq⟩ := Option.map_eq_some_iff.mp h
      obtain ⟨body, rest, rfl, rfl, hmeans⟩ := ih hread
      cases heq
      refine ⟨c :: body, rest, rfl, rfl, ?_⟩
      rw [if_pos hpending]
      split
      · rename_i hc
        exact .escaped ((isEscapable_iff c).mp hc) hmeans
      · rename_i hc
        rw [isEscapable_iff, not_or] at hc
        exact .kept hc.1 hc.2 hmeans
    · rename_i hpending
      rw [Bool.not_eq_true] at hpending
      subst hpending
      split at h
      · rename_i hquote
        cases h
        subst hquote
        exact ⟨[], cs, rfl, rfl, .nil⟩
      · rename_i hquote
        split at h
        · rename_i hslash
          obtain ⟨⟨text, k⟩, hread, heq⟩ := Option.map_eq_some_iff.mp h
          obtain ⟨body, rest, rfl, rfl, hmeans⟩ := ih hread
          cases heq
          exact ⟨c :: body, rest, rfl, rfl, hslash ▸ hmeans⟩
        · rename_i hslash
          obtain ⟨⟨text, k⟩, hread, heq⟩ := Option.map_eq_some_iff.mp h
          obtain ⟨body, rest, rfl, rfl, hmeans⟩ := ih hread
          cases heq
          exact ⟨c :: body, rest, rfl, rfl, .plain hquote hslash hmeans⟩

theorem read_eq_some_iff : read cs = some (value, n) ↔
    ∃ body rest, cs = body ++ '"' :: rest ∧ n = body.length + 1 ∧ Means body value := by
  constructor
  · exact exists_means_of_readFrom
  · rintro ⟨body, rest, rfl, rfl, hmeans⟩
    exact hmeans.read rest

end Text.Quoted

namespace Token

open Text.Quoted (Means)

variable {front back : List Char} {kind : Kind} {ts : List Token}

/-- A spelling between quotes is a token, whatever follows. -/
theorem spells_means {body value : List Char} (h : Means body value) (rest : List Char) :
    Spells ('"' :: body ++ ['"']) (.literal (.string (String.ofList value))) rest := by
  refine ⟨'"', body ++ ['"'], rfl, by decide, ?_⟩
  rw [List.append_assoc, List.singleton_append, lexeme_quote, h.read rest]
  simp

/-- The token of a string is a spelling between quotes. -/
theorem Spells.exists_means {chars rest : List Char} {s : String}
    (h : Spells chars (.literal (.string s)) rest) :
    ∃ body, chars = '"' :: body ++ ['"'] ∧ Means body s.toList := by
  obtain ⟨c, cs, rfl, -, hl⟩ := h
  generalize hkind : Kind.literal (.string s) = kind at hl
  generalize hlength : cs.length = n at hl
  cases lexes_of_lexeme hl with
  | opening | closing | operator => cases hkind
  | negative h | positive _ h =>
    obtain ⟨x, hx, -⟩ := exists_of_number h
    cases hkind.trans hx
  | word =>
    unfold word at hkind
    split at hkind <;> cases hkind
  | string hread =>
    cases hkind
    obtain ⟨body, back, hcs, rfl, hmeans⟩ := Text.Quoted.read_eq_some_iff.mp hread
    have hsplit : cs ++ rest = (body ++ ['"']) ++ back := by simpa using hcs
    obtain ⟨rfl, -⟩ := List.append_inj hsplit (by simpa using hlength)
    exact ⟨body, rfl, by simpa using hmeans⟩

/-- A token that stands behind others and is ended by nothing in particular. -/
theorem scanFrom_append_spells {chars : List Char} (hfront : scanFrom 0 front = .ok ts)
    (hsevers : Severs (chars ++ back)) (h : Spells chars kind back) :
    scanFrom 0 (front ++ (chars ++ back)) =
      (scanFrom (front.length + chars.length) back).map fun us =>
        ts ++ ⟨kind, String.ofList chars, front.length⟩ :: us := by
  obtain ⟨q, hsplits⟩ := splits_of_scanFrom hfront
  obtain ⟨whole, hwhole, -, hq⟩ := hsplits.exists_eq_append
  rw [List.append_nil] at hwhole
  rw [← hwhole, Nat.zero_add] at hq
  subst hq
  have hall := (hsplits.extend hsevers).append (h.splits front.length)
  rw [hall.scanFrom_eq]
  simp only [List.append_assoc, List.singleton_append]

/-- String literals are escaped and read without loss. What is written for a string is read, behind
any tokens and in front of anything, as one token that has the string for its value and ends at the
last quote. What the scanner reads as a string is one of its spellings between quotes, all of which
are read as that string, and so is what is written for it. -/
theorem string_literals_lossless (s : String) :
    (∀ (front more : String) (ts : List Token), scan front = .ok ts →
      scan (front ++ (Scalar.string s).text ++ more) =
        (scanFrom (front.length + (Scalar.string s).text.length) more.toList).map fun us =>
          ts ++ ⟨.literal (.string s), (Scalar.string s).text, front.length⟩ :: us) ∧
    (∀ (text : String) (ts : List Token), scan text = .ok ts →
      ∀ t ∈ ts, t.kind = .literal (.string s) →
        (∃ body, t.text.toList = '"' :: body ++ ['"'] ∧ Means body s.toList) ∧
        scan (Scalar.string s).text = .ok [⟨.literal (.string s), (Scalar.string s).text, 0⟩]) ∧
    ∀ (raw : String) (body : List Char), raw.toList = '"' :: body ++ ['"'] →
      Means body s.toList → scan raw = .ok [⟨.literal (.string s), raw, 0⟩] := by
  have hwritten : (Scalar.string s).text.toList =
      '"' :: Text.Quoted.escape s.toList ++ ['"'] := by
    simp [Scalar.text, Text.Quoted.write]
  have alone (raw : String) (body : List Char) (hraw : raw.toList = '"' :: body ++ ['"'])
      (hmeans : Means body s.toList) : scan raw = .ok [⟨.literal (.string s), raw, 0⟩] := by
    have hspells := spells_means hmeans []
    rw [← hraw, String.ofList_toList] at hspells
    have hsplits := hspells.splits 0
    rw [List.append_nil, String.ofList_toList] at hsplits
    exact hsplits.scanFrom_eq_ok
  refine ⟨fun front more ts hfront => ?anywhere, fun text ts htext t ht hkind => ⟨?spelled, ?again⟩,
    alone⟩
  case anywhere =>
    have hspells := spells_means (Text.Quoted.means_escape s.toList) more.toList
    rw [← hwritten, String.ofList_toList] at hspells
    have hsevers : Severs ((Scalar.string s).text.toList ++ more.toList) := by
      rw [hwritten]
      exact severs_quote _
    have happend := scanFrom_append_spells hfront hsevers hspells
    rw [String.ofList_toList, String.length_toList, String.length_toList] at happend
    rw [scan, String.append_assoc, String.toList_append, String.toList_append]
    exact happend
  case spelled =>
    obtain ⟨q, hsplits⟩ := splits_of_scanFrom htext
    obtain ⟨_, rest, -, -, hspells⟩ := hsplits.stands ht
    rw [hkind] at hspells
    exact hspells.exists_means
  case again => exact alone _ _ hwritten (Text.Quoted.means_escape s.toList)

/-- A string that ends with a backslash, behind an operator and in front of a quote that is not
closed; and a spelling of it with single backslashes, which is not what is written for it. -/
theorem string_literals_lossless_backslash :
    let s := "\"\\n\\"
    let raw := "\"\\\"\\n\\\\\""
    scan ("a=" ++ (Scalar.string s).text ++ "\"") = .error ⟨11, .unterminated⟩ ∧
      scan raw = .ok [⟨.literal (.string s), raw, 0⟩] ∧
      scan (Scalar.string s).text = .ok [⟨.literal (.string s), (Scalar.string s).text, 0⟩] ∧
      raw ≠ (Scalar.string s).text := by
  intro s raw
  obtain ⟨hanywhere, hread, hspelled⟩ := string_literals_lossless s
  have hfront : scan "a=" = .ok [⟨.identifier "a", "a", 0⟩, ⟨.comparison .equal, "=", 1⟩] := by
    decide +kernel
  have hs : s.toList = ['"', '\\', 'n', '\\'] := by decide +kernel
  have hmeans : Means ['\\', '"', '\\', 'n', '\\', '\\'] s.toList := by
    rw [hs]
    exact .escaped (.inl rfl) (.kept (c := 'n') (by decide) (by decide) (.escaped (.inr rfl) .nil))
  have hraw := hspelled raw _ (by decide +kernel) hmeans
  refine ⟨?_, hraw, (hread raw _ hraw _ List.mem_cons_self rfl).2, by decide +kernel⟩
  rw [hanywhere "a=" "\"" _ hfront]
  decide +kernel

end Token
end Criteria
