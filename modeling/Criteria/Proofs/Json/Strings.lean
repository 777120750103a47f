import Criteria.Json.Printer
import Criteria.Json.Token
import Mathlib.Data.List.Induction
import Mathlib.Data.Nat.Notation
import Mathlib.Tactic.Lemma

/-! The notation of strings in documents. A character has several spellings: itself, the letter of
an escape, its code in hexadecimal digits or, above U+FFFF, the codes of its two halves. A string is
read up to the first quote that is not part of a spelling. -/
namespace Criteria.Json.Token

/-- A hexadecimal digit, as a small letter or a capital where it is a letter, and its value. -/
def HexDigit (c : Char) (value : ℕ) : Prop :=
  value < 16 ∧ (c = Nat.digitChar value ∨ c = (Nat.digitChar value).toUpper)

instance (c : Char) (value : ℕ) : Decidable (HexDigit c value) :=
  inferInstanceAs (Decidable (_ ∧ _))

/-- Hexadecimal digits and their value. -/
inductive Hexadecimal : List Char → ℕ → Prop
  | nil : Hexadecimal [] 0
  | snoc {digits high c low} (h : Hexadecimal digits high) (hc : HexDigit c low) :
      Hexadecimal (digits ++ [c]) (high * 16 + low)

/-- The letters that may follow a backslash, each with what it stands for. -/
def escapes : List (Char × Char) :=
  [('"', '"'), ('\\', '\\'), ('/', '/'), ('b', '\x08'), ('f', '\x0c'), ('n', '\n'), ('r', '\r'),
    ('t', '\t')]

/-- The spellings of a piece of a string. -/
inductive Piece.Spelled : List Char → Piece → Prop
  | plain {c} (hcontrol : 0x20 ≤ c.toNat) (hquote : c ≠ '"') (hslash : c ≠ '\\') :
      Spelled [c] (.char c)
  | escaped {e c} (h : (e, c) ∈ escapes) : Spelled ['\\', e] (.char c)
  | code {digits n} (hlength : digits.length = 4) (h : Hexadecimal digits n) :
      Spelled ('\\' :: 'u' :: digits) (.ofCode n)

/-- The spellings of pieces one behind the other. -/
inductive Pieces : List Char → List Piece → Prop
  | nil : Pieces [] []
  | cons {chars piece body ps} (h : Piece.Spelled chars piece) (hps : Pieces body ps) :
      Pieces (chars ++ body) (piece :: ps)

/-- The characters of the pieces, if every high half has a low one after it and no other half is
left. -/
inductive Paired : List Piece → List Char → Prop
  | nil : Paired [] []
  | char {c ps s} (h : Paired ps s) : Paired (.char c :: ps) (c :: s)
  | pair {high low ps s} (hhigh : high < 0xDC00) (hlow : 0xDC00 ≤ low) (h : Paired ps s) :
      Paired (.half high :: .half low :: ps)
        (Char.ofNat (0x10000 + (high - 0xD800) * 0x400 + (low - 0xDC00)) :: s)

variable {c e : Char} {cs chars body digits s : List Char} {piece : Piece} {ps : List Piece}
  {n : ℕ}

/-- A character by its place behind another one. -/
lemma eq_ofNat_of_le {first : Char} (h : first ≤ c) :
    c = Char.ofNat (first.toNat + (c.toNat - first.toNat)) := by
  have hle : first.toNat ≤ c.toNat := UInt32.le_iff_toNat_le.mp (Char.le_def.mp h)
  rw [Nat.add_sub_cancel' hle, Char.ofNat_toNat]

lemma place_lt_of_le {first last : Char} (h : first ≤ c ∧ c ≤ last) :
    c.toNat - first.toNat < last.toNat - first.toNat + 1 := by
  have hfirst : first.toNat ≤ c.toNat := UInt32.le_iff_toNat_le.mp (Char.le_def.mp h.1)
  have hlast : c.toNat ≤ last.toNat := UInt32.le_iff_toNat_le.mp (Char.le_def.mp h.2)
  omega

lemma isDigit_iff_le : c.isDigit = true ↔ '0' ≤ c ∧ c ≤ '9' := by
  simp [Char.isDigit, Char.le_def]

/-- A hexadecimal digit by its place among the digits or among the letters. -/
def Ranged (c : Char) (value : ℕ) : Prop :=
  c.isDigit = true ∧ value = c.toNat - '0'.toNat ∨
  ('a' ≤ c ∧ c ≤ 'f') ∧ value = c.toNat - 'a'.toNat + 10 ∨
  ('A' ≤ c ∧ c ≤ 'F') ∧ value = c.toNat - 'A'.toNat + 10

instance (c : Char) (value : ℕ) : Decidable (Ranged c value) :=
  inferInstanceAs (Decidable (_ ∨ _))

lemma hexDigit_iff_ranged (c : Char) (n : ℕ) : HexDigit c n ↔ Ranged c n := by
  constructor
  · rintro ⟨hn, hc⟩
    have all : ∀ n < 16, Ranged (Nat.digitChar n) n ∧ Ranged (Nat.digitChar n).toUpper n := by
      decide
    rcases hc with rfl | rfl
    · exact (all n hn).1
    · exact (all n hn).2
  · have digit : ∀ i < 10, HexDigit (Char.ofNat ('0'.toNat + i)) i := by decide
    have small : ∀ i < 6, HexDigit (Char.ofNat ('a'.toNat + i)) (i + 10) := by decide
    have capital : ∀ i < 6, HexDigit (Char.ofNat ('A'.toNat + i)) (i + 10) := by decide
    rintro (⟨hc, rfl⟩ | ⟨hc, rfl⟩ | ⟨hc, rfl⟩)
    · rw [isDigit_iff_le] at hc
      have h := digit _ (place_lt_of_le hc)
      rwa [← eq_ofNat_of_le hc.1] at h
    · have h := small _ (place_lt_of_le hc)
      rwa [← eq_ofNat_of_le hc.1] at h
    · have h := capital _ (place_lt_of_le hc)
      rwa [← eq_ofNat_of_le hc.1] at h

lemma hexadecimal?_concat_eq_some_iff : hexadecimal? (digits ++ [c]) = some n ↔
    ∃ high low, hexadecimal? digits = some high ∧ HexDigit c low ∧ n = high * 16 + low := by
  simp only [hexadecimal?, List.foldlM_append, Option.bind_eq_bind, Option.bind_eq_some_iff,
    List.foldlM_cons, List.foldlM_nil, hexDigit_iff_ranged, Ranged]
  constructor
  · rintro ⟨high, hhigh, _, hlow, ⟨⟩⟩
    refine ⟨high, ?_⟩
    split_ifs at hlow with hd hs hc
    · exact ⟨_, hhigh, .inl ⟨hd, rfl⟩, (Option.some.inj hlow).symm⟩
    · exact ⟨_, hhigh, .inr (.inl ⟨hs, rfl⟩), (Option.some.inj hlow).symm⟩
    · exact ⟨_, hhigh, .inr (.inr ⟨hc, rfl⟩), (Option.some.inj hlow).symm⟩
  · rintro ⟨high, low, hhigh, hc, rfl⟩
    refine ⟨high, hhigh, _, ?_, rfl⟩
    rcases hc with ⟨hc, rfl⟩ | ⟨hc, rfl⟩ | ⟨hc, rfl⟩
    · rw [if_pos hc]
    · rw [if_neg, if_pos hc]
      exact fun hd => absurd (Char.le_trans hc.1 (isDigit_iff_le.mp hd).2) (by decide)
    · rw [if_neg, if_neg, if_pos hc]
      · exact fun hs => absurd (Char.le_trans hs.1 hc.2) (by decide)
      · exact fun hd => absurd (Char.le_trans hc.1 (isDigit_iff_le.mp hd).2) (by decide)

theorem hexadecimal?_eq_some_iff : hexadecimal? digits = some n ↔ Hexadecimal digits n := by
  constructor
  · induction digits using List.reverseRecOn generalizing n with
    | nil =>
      rintro ⟨⟩
      exact .nil
    | append_singleton digits c ih =>
      intro h
      obtain ⟨high, low, hhigh, hc, rfl⟩ := hexadecimal?_concat_eq_some_iff.mp h
      exact .snoc (ih hhigh) hc
  · intro h
    induction h with
    | nil => rfl
    | snoc _ hc ih => exact hexadecimal?_concat_eq_some_iff.mpr ⟨_, _, ih, hc, rfl⟩

theorem escaped?_eq_some_iff : escaped? e = some c ↔ (e, c) ∈ escapes := by
  constructor
  · unfold escaped?
    intro h
    split at h
    · rename_i he
      cases h
      rcases he with rfl | rfl | rfl <;> decide
    · split_ifs at h <;> cases h <;> subst_vars <;> decide
  · have all : ∀ p ∈ escapes, escaped? p.1 = some p.2 := by decide
    exact fun h => all (e, c) h

/-- What begins a piece is no quote, and the piece ends where its spelling does. -/
theorem Piece.Spelled.piece? (h : Piece.Spelled chars piece) (rest : List Char) :
    ∃ c cs, chars = c :: cs ∧ c ≠ '"' ∧ piece? c (cs ++ rest) = some (piece, cs.length) := by
  cases h with
  | @plain c hcontrol hquote hslash =>
    exact ⟨c, [], rfl, hquote, by simp [Token.piece?, Nat.not_lt.mpr hcontrol, hslash]⟩
  | @escaped e c h =>
    refine ⟨'\\', [e], rfl, by decide, ?_⟩
    have he : e ≠ 'u' := by
      rintro rfl
      revert h
      simp [escapes]
    simp [Token.piece?, he, escaped?_eq_some_iff.mpr h]
  | @code digits n hlength h =>
    match digits, hlength with
    | [i, j, k, l], _ =>
      refine ⟨'\\', ['u', i, j, k, l], rfl, by decide, ?_⟩
      simp [Token.piece?, hexadecimal?_eq_some_iff.mpr h]

theorem exists_of_piece? (hc : c ≠ '"') (h : piece? c cs = some (piece, n)) :
    ∃ ds rest, cs = ds ++ rest ∧ n = ds.length ∧ Piece.Spelled (c :: ds) piece := by
  unfold piece? at h
  split at h
  · cases h
  rename_i hcontrol
  split at h
  · rename_i hslash
    cases h
    exact ⟨[], cs, rfl, rfl, .plain (Nat.not_lt.mp hcontrol) hc hslash⟩
  rename_i hslash
  obtain rfl := Decidable.not_not.mp hslash
  split at h
  · rename_i i j k l rest
    obtain ⟨code, hcode, heq⟩ := Option.map_eq_some_iff.mp h
    cases heq
    exact ⟨['u', i, j, k, l], rest, rfl, rfl, .code rfl (hexadecimal?_eq_some_iff.mp hcode)⟩
  · rename_i e rest _
    obtain ⟨c, he, heq⟩ := Option.map_eq_some_iff.mp h
    cases heq
    exact ⟨[e], rest, rfl, rfl, .escaped (escaped?_eq_some_iff.mp he)⟩
  · cases h

theorem Pieces.pieces? (h : Pieces body ps) (rest : List Char) :
    pieces? (body ++ '"' :: rest) = some (ps, body.length + 1) := by
  induction h with
  | nil => simp [Token.pieces?]
  | @cons chars piece body ps h hps ih =>
    obtain ⟨c, cs, rfl, hc, hpiece⟩ := h.piece? (body ++ '"' :: rest)
    rw [List.append_assoc, List.cons_append, Token.pieces?, if_neg hc, hpiece]
    simp only [List.drop_left, ih, Option.map_some, List.length_append, List.length_cons]
    congr 2

/-- What is read as pieces is one spelling behind the other, up to a quote. -/
theorem exists_of_pieces? (h : pieces? cs = some (ps, n)) :
    ∃ body rest, cs = body ++ '"' :: rest ∧ n = body.length + 1 ∧ Pieces body ps := by
  induction cs using pieces?.induct generalizing ps n with
  | case1 =>
    rw [pieces?] at h
    cases h
  | case2 cs =>
    rw [pieces?, if_pos rfl] at h
    cases h
    exact ⟨[], cs, rfl, rfl, .nil⟩
  | case3 c cs hc hpiece =>
    rw [pieces?, if_neg hc, hpiece] at h
    cases h
  | case4 c cs hc piece k hpiece ih =>
    rw [pieces?, if_neg hc, hpiece] at h
    obtain ⟨⟨ps, taken⟩, hps, heq⟩ := Option.map_eq_some_iff.mp h
    cases heq
    obtain ⟨ds, behind, rfl, rfl, hspelled⟩ := exists_of_piece? hc hpiece
    rw [List.drop_left] at hps ih
    obtain ⟨body, rest, rfl, rfl, hbody⟩ := ih hps
    refine ⟨(c :: ds) ++ body, rest, by simp, ?_, .cons hspelled hbody⟩
    simp only [List.length_append, List.length_cons]
    omega

theorem text?_eq_some_iff : text? ps = some s ↔ Paired ps s := by
  constructor
  · intro h
    fun_induction text? ps generalizing s with
    | case1 =>
      cases h
      exact .nil
    | case2 c ps ih =>
      obtain ⟨s, hs, rfl⟩ := Option.map_eq_some_iff.mp h
      exact .char (ih hs)
    | case3 high low ps hhalves ih =>
      obtain ⟨s, hs, rfl⟩ := Option.map_eq_some_iff.mp h
      exact .pair hhalves.1 hhalves.2 (ih hs)
    | case4 | case5 => cases h
  · intro h
    induction h with
    | nil => rfl
    | char _ ih => rw [text?, ih, Option.map_some]
    | pair hhigh hlow _ ih => rw [text?, if_pos ⟨hhigh, hlow⟩, ih, Option.map_some]

lemma hexadecimal_byte {n : ℕ} (h : n < 0x100) :
    Hexadecimal ['0', '0', Nat.digitChar (n / 16), Nat.digitChar (n % 16)] n := by
  have hzero : HexDigit '0' 0 := by decide
  have hhigh : HexDigit (Nat.digitChar (n / 16)) (n / 16) := ⟨by omega, .inl rfl⟩
  have hlow : HexDigit (Nat.digitChar (n % 16)) (n % 16) := ⟨by omega, .inl rfl⟩
  have hall := (((Hexadecimal.nil.snoc hzero).snoc hzero).snoc hhigh).snoc hlow
  rwa [show (((0 * 16 + 0) * 16 + 0) * 16 + n / 16) * 16 + n % 16 = n by omega] at hall

/-- The spelling of a character in a text that is written. -/
theorem spelled_escape (c : Char) : Piece.Spelled (escape c) (.char c) := by
  unfold escape
  split
  · rename_i hc
    exact .escaped (by rcases hc with rfl | rfl <;> decide)
  rename_i hmarks
  rw [not_or] at hmarks
  split_ifs with h h h h h hcontrol
  iterate 5
    subst h
    exact .escaped (by decide)
  · have hcode : Piece.ofCode c.toNat = .char c := by
      rw [Piece.ofCode, if_neg (by omega), Char.ofNat_toNat]
    exact hcode ▸ .code rfl (hexadecimal_byte (Nat.lt_trans hcontrol (by decide)))
  · exact .plain (Nat.not_lt.mp hcontrol) hmarks.1 hmarks.2

theorem pieces_escape (s : List Char) : Pieces (s.flatMap escape) (s.map .char) := by
  induction s with
  | nil => exact .nil
  | cons c s ih => exact .cons (spelled_escape c) ih

theorem paired_map_char (s : List Char) : Paired (s.map .char) s := by
  induction s with
  | nil => exact .nil
  | cons c s ih => exact .char ih

end Criteria.Json.Token
