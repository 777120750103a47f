import Criteria.Proofs.Scanning.Locality
import Mathlib.Data.List.Basic

/-! The tokens of a text against the text itself. Each token has its characters from its place in
the text, the characters outside all tokens are blanks, and a token that is read alone is the same
token. Two tokens that touch are two tokens alone as well. -/
namespace Criteria.Token

/-- The text of a kind that has one text only. -/
def Kind.symbol? : Kind → Option String
  | .comparison operator => some operator.symbol
  | .opening => some "("
  | .closing => some ")"
  | _ => none

/-- The characters, which begin at the place `p`, have those of the token at its place, and what
follows there makes no other token of them. -/
def Stands (p : ℕ) (cs : List Char) (t : Token) : Prop :=
  ∃ front rest, cs = front ++ (t.text.toList ++ rest) ∧ t.position = p + front.length ∧
    Spells t.text.toList t.kind rest

variable {p q : ℕ} {cs rest : List Char} {ts : List Token} {t u : Token}

theorem Stands.append (h : Stands (p + cs.length) rest t) : Stands p (cs ++ rest) t := by
  obtain ⟨front, back, rfl, hposition, hspells⟩ := h
  exact ⟨cs ++ front, back, by rw [List.append_assoc], by rw [List.length_append]; omega, hspells⟩

lemma symbol?_word (text : String) : (word text).symbol? = none := by
  unfold word
  split <;> rfl

/-- A kind that has one text only is read from that text. -/
theorem Lexes.symbol {c : Char} {kind : Kind} {n : ℕ} {s : String} (h : Lexes c cs kind n)
    (hs : kind.symbol? = some s) : c :: cs.take n = s.toList := by
  cases h with
  | opening | closing =>
    cases hs
    rfl
  | operator ho =>
    cases hs
    exact ho.symm
  | string => cases hs
  | negative hn | positive _ hn =>
    obtain ⟨_, rfl, -⟩ := exists_of_number hn
    cases hs
  | word =>
    rw [symbol?_word] at hs
    cases hs

theorem Spells.symbol {chars : List Char} {kind : Kind} {s : String} (h : Spells chars kind rest)
    (hs : kind.symbol? = some s) : chars = s.toList := by
  obtain ⟨c, cs, rfl, -, hl⟩ := h
  rw [← (lexes_of_lexeme hl).symbol hs, List.take_left]

theorem Splits.stands (h : Splits p cs ts q rest) (ht : t ∈ ts) : Stands p cs t := by
  induction h with
  | done => cases ht
  | @blank p c cs _ _ _ _ _ ih =>
    have hstands : Stands p ([c] ++ cs) t := (ih ht).append
    exact hstands
  | @token p c cs kind n ts q rest hc hl _ ih =>
    have hn := le_length_of_lexeme hl
    have hlength : (c :: cs.take n).length = n + 1 := by simp [hn]
    rcases List.mem_cons.mp ht with rfl | ht
    · refine ⟨[], cs.drop n, ?_, rfl, ?_⟩
      · rw [String.toList_ofList, List.nil_append, List.cons_append, List.take_append_drop]
      · rw [String.toList_ofList]
        refine ⟨c, cs.take n, rfl, hc, ?_⟩
        rw [List.take_append_drop, List.length_take, Nat.min_eq_left hn]
        exact hl
    · have hstands := ih ht
      rw [Nat.add_assoc, ← hlength] at hstands
      have happend := hstands.append
      rwa [List.cons_append, List.take_append_drop] at happend

namespace Stands

/-- The place of a token in a text that begins at the place zero, and its characters there. -/
theorem extract_eq (h : Stands 0 cs t) :
    t.stop ≤ cs.length ∧ cs.extract t.position t.stop = t.text.toList := by
  obtain ⟨front, rest, rfl, hposition, -⟩ := h
  have hstop : t.stop = front.length + t.text.toList.length := by
    rw [stop, hposition, String.length_toList]
    omega
  rw [hstop, hposition]
  refine ⟨by simp only [List.length_append]; omega, ?_⟩
  simp

theorem position_lt_stop (h : Stands p cs t) : t.position < t.stop := by
  obtain ⟨_, _, -, -, c, ds, hchars, -, -⟩ := h
  have hlength := congrArg List.length hchars
  rw [String.length_toList, List.length_cons] at hlength
  rw [stop]
  omega

/-- A token that is read alone is the token it was. -/
theorem scan_text (h : Stands p cs t) : scan t.text = .ok [{ t with position := 0 }] := by
  obtain ⟨_, rest, -, -, hspells⟩ := h
  have halone : Spells t.text.toList t.kind [] := hspells.cut
  have hsplits := halone.splits 0
  rw [List.append_nil, String.ofList_toList] at hsplits
  exact hsplits.scanFrom_eq_ok

/-- Two tokens that touch are two tokens if they are read alone. -/
theorem scan_text_append (ht : Stands p cs t) (hu : Stands p cs u) (h : t.stop = u.position) :
    scan (t.text ++ u.text) =
      .ok [{ t with position := 0 }, { u with position := t.text.length }] := by
  obtain ⟨front, rest, rfl, hposition, htspells⟩ := ht
  obtain ⟨front', rest', hcs, hposition', huspells⟩ := hu
  have hlength : (front ++ t.text.toList).length = front'.length := by
    rw [List.length_append, String.length_toList]
    rw [stop] at h
    omega
  rw [← List.append_assoc] at hcs
  obtain ⟨-, rfl⟩ := List.append_inj hcs hlength
  have hfirst := (Spells.cut htspells).splits 0
  have halone : Spells u.text.toList u.kind [] := huspells.cut
  have hsecond := halone.splits (0 + t.text.toList.length)
  rw [List.append_nil] at hsecond
  have hboth := hfirst.append hsecond
  rw [Nat.zero_add, String.length_toList, String.ofList_toList, String.ofList_toList] at hboth
  rw [scan, String.toList_append]
  exact hboth.scanFrom_eq_ok

end Stands

namespace Splits

theorem le_position (h : Splits p cs ts q rest) (ht : t ∈ ts) : p ≤ t.position := by
  obtain ⟨_, _, -, hposition, -⟩ := h.stands ht
  omega

/-- Each token begins where those before it have ended. -/
theorem pairwise (h : Splits p cs ts q rest) : ts.Pairwise fun t u => t.stop ≤ u.position := by
  induction h with
  | done => exact .nil
  | blank _ _ ih => exact ih
  | @token p c cs kind n ts q rest _ hl h ih =>
    refine .cons (fun u hu => ?_) ih
    have hn := le_length_of_lexeme hl
    have hlength : (c :: cs.take n).length = n + 1 := by simp [hn]
    have hu := h.le_position hu
    rw [stop, String.length_ofList, hlength]
    omega

/-- What lies outside all tokens of a front is blank. -/
theorem isBlank_of_outside (h : Splits p cs ts q rest) {i : ℕ} {c : Char} (hi : p + i < q)
    (hc : cs[i]? = some c) (hout : ∀ t ∈ ts, p + i < t.position ∨ t.stop ≤ p + i) :
    Text.isBlank c = true := by
  induction h generalizing i with
  | done => omega
  | @blank p d cs ts q rest hd _ ih =>
    cases i with
    | zero =>
      cases hc
      exact hd
    | succ i =>
      rw [List.getElem?_cons_succ] at hc
      exact ih (by omega) hc (by rwa [Nat.add_right_comm, Nat.add_assoc])
  | @token p d cs kind n ts q rest _ hl _ ih =>
    have hn := le_length_of_lexeme hl
    have hlength : (d :: cs.take n).length = n + 1 := by simp [hn]
    obtain ⟨hfirst, hout⟩ := List.forall_mem_cons.mp hout
    simp only [stop, String.length_ofList, hlength] at hfirst
    obtain ⟨j, rfl⟩ : ∃ j, i = n + j + 1 := ⟨i - n - 1, by omega⟩
    rw [List.getElem?_cons_succ, ← List.getElem?_drop] at hc
    have hplace : p + (n + j + 1) = p + n + 1 + j := by omega
    rw [hplace] at hi hout
    exact ih hi hc hout

end Splits

/-- What a text and its tokens have to do with each other. -/
structure Lossless (text : String) (ts : List Token) : Prop where
  /-- The tokens come in the order of their places and do not overlap. -/
  ordered : ts.Pairwise fun t u => t.position < u.position ∧ t.stop ≤ u.position
  /-- The text of a token is the characters from its place to its end. -/
  slices : ∀ t ∈ ts, t.position < t.stop ∧ t.stop ≤ text.length ∧
    text.toList.extract t.position t.stop = t.text.toList
  /-- A token of a kind that has one text only has that text. -/
  symbols : ∀ t ∈ ts, ∀ s, t.kind.symbol? = some s → t.text = s
  /-- A character outside all tokens is a blank. -/
  blanks : ∀ (i : ℕ) (c : Char), text.toList[i]? = some c →
    (∀ t ∈ ts, i < t.position ∨ t.stop ≤ i) → Text.isBlank c = true
  /-- A token that is read alone is that token. -/
  alone : ∀ t ∈ ts, scan t.text = .ok [{ t with position := 0 }]
  /-- Two tokens that touch could not have been one: read alone, they are the same two again. -/
  apart : ∀ t ∈ ts, ∀ u ∈ ts, t.stop = u.position → scan (t.text ++ u.text) =
    .ok [{ t with position := 0 }, { u with position := t.text.length }]

/-- Splitting a text into tokens loses nothing but blanks, and each token is as long as it can be.
-/
theorem lossless_of_scan {text : String} (h : scan text = .ok ts) : Lossless text ts := by
  obtain ⟨q, hsplits⟩ := splits_of_scanFrom h
  have hstands (t : Token) (ht : t ∈ ts) : Stands 0 text.toList t := hsplits.stands ht
  refine ⟨?ordered, ?slices, ?symbols, ?blanks, ?alone, ?apart⟩
  case ordered =>
    refine hsplits.pairwise.imp_of_mem fun {t u} ht _ hle => ⟨?_, hle⟩
    exact Nat.lt_of_lt_of_le (hstands t ht).position_lt_stop hle
  case slices => exact fun t ht => ⟨(hstands t ht).position_lt_stop, (hstands t ht).extract_eq⟩
  case symbols =>
    intro t ht s hs
    obtain ⟨_, _, -, -, hspells⟩ := hstands t ht
    exact String.toList_inj.mp (hspells.symbol hs)
  case blanks =>
    intro i c hc hout
    obtain ⟨front, hfront, -, hq⟩ := hsplits.exists_eq_append
    rw [List.append_nil] at hfront
    have hi := (List.getElem?_eq_some_iff.mp hc).1
    refine hsplits.isBlank_of_outside (by rw [hq, ← hfront]; omega) hc ?_
    simpa only [Nat.zero_add] using hout
  case alone => exact fun t ht => (hstands t ht).scan_text
  case apart => exact fun t ht u hu => (hstands t ht).scan_text_append (hstands u hu)

/-- Tokens of several kinds that touch, one of them a string with an escaped quote, and a blank of
more than one byte. -/
theorem lossless_touching :
    let text := "a>=-1.5AND\u2003b<\"x\\\"\""
    let ts : List Token := [⟨.identifier "a", "a", 0⟩, ⟨.comparison .greaterEqual, ">=", 1⟩,
      ⟨.literal (.number ⟨0xbff8000000000000⟩), "-1.5", 3⟩, ⟨.connective .and, "AND", 7⟩,
      ⟨.identifier "b", "b", 11⟩, ⟨.comparison .less, "<", 12⟩,
      ⟨.literal (.string "x\""), "\"x\\\"\"", 13⟩]
    scan text = .ok ts ∧ Lossless text ts := by
  intro text ts
  have hscan : scan text = .ok ts := by decide +kernel
  exact ⟨hscan, lossless_of_scan hscan⟩

end Criteria.Token
