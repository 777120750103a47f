import Criteria.Json.Reader
import Criteria.Proofs.Json.Numeral
import Criteria.Proofs.Json.Tokens
import Mathlib.Data.List.Forall2

/-! Documents are read back from their texts. A value is read up to the comma or the bracket behind
it, so the texts of the parts of an object are read one after the other. -/
namespace Criteria.Json

namespace Token

variable {c : Char} {cs : List Char}

theorem scan?_cons {t : Token} {n : ℕ} (hspace : isSpace c = false)
    (h : lexeme? c cs = some (t, n)) : scan? (c :: cs) = (scan? (cs.drop n)).map (t :: ·) := by
  rw [scan?]
  simp [hspace, h]

theorem lexeme?_quote (text : String) (rest : List Char) :
    lexeme? '"' (text.toList.flatMap escape ++ '"' :: rest) =
      some (string (some text), (text.toList.flatMap escape).length + 1) := by
  rw [lexeme?_string (pieces_escape text.toList), text?_eq_some_iff.mpr (paired_map_char _),
    Option.map_some, String.ofList_toList]

end Token

namespace Reader

variable {c : Char} {cs : List Char} {s s' : State} {v : Json}

/-- Reads what is left of a document. -/
def readFrom? (s : State) (cs : List Char) : Option Json := do
  let tokens ← Token.scan? cs
  let s ← tokens.foldlM State.step? s
  s.result?

theorem parse?_eq (text : String) : parse? text = readFrom? {} text.toList := by
  simp only [parse?, ofTokens?, readFrom?]

theorem readFrom?_cons {t : Token} {n : ℕ} (hspace : Token.isSpace c = false)
    (ht : Token.lexeme? c cs = some (t, n)) (hs : s.step? t = some s') :
    readFrom? s (c :: cs) = readFrom? s' (cs.drop n) := by
  simp only [readFrom?, Token.scan?_cons hspace ht, bind]
  cases Token.scan? (cs.drop n) with
  | none => rfl
  | some tokens => simp [hs]

theorem readFrom?_quote {text : String} (hs : s.step? (.string (some text)) = some s')
    (rest : List Char) : readFrom? s ((quote text).toList ++ rest) = readFrom? s' rest := by
  have hquote : (quote text).toList ++ rest =
      '"' :: (text.toList.flatMap escape ++ '"' :: rest) := by simp [quote]
  have hdrop : (text.toList.flatMap escape ++ '"' :: rest).drop
      ((text.toList.flatMap escape).length + 1) = rest := by
    rw [List.drop_length_add_append]
    rfl
  rw [hquote, readFrom?_cons (by decide) (Token.lexeme?_quote text rest) hs, hdrop]

/-- Characters that are a value of a document where a value may end. -/
def Spells (chars : List Char) (v : Json) : Prop :=
  ∀ outer empty rest, Token.Stop rest →
    readFrom? ⟨outer, .value empty⟩ (chars ++ rest) = readFrom? ⟨outer, .complete v⟩ rest

theorem Spells.parse? {text : String} (h : Spells text.toList v) : parse? text = some v := by
  have hread := h [] false [] .nil
  have hend : readFrom? ⟨[], .complete v⟩ [] = some v := by
    simp [readFrom?, Token.scan?, State.result?]
  rw [parse?_eq, ← hend, ← hread, List.append_nil]

theorem spells_value (hspace : Token.isSpace c = false)
    (h : ∀ rest, Token.Stop rest → Token.lexeme? c (cs ++ rest) = some (.value v, cs.length)) :
    Spells (c :: cs) v := by
  intro outer empty rest hrest
  rw [List.cons_append, readFrom?_cons hspace (h rest hrest) rfl, List.drop_left]

theorem spells_string (text : String) : Spells (quote text).toList (string text) :=
  fun _ _ rest _ => readFrom?_quote rfl rest

theorem spells_boolean (b : Bool) : Spells (boolean b).text.toList (boolean b) := by
  cases b with
  | true =>
    change Spells ['t', 'r', 'u', 'e'] (boolean true)
    exact spells_value (by decide) fun rest _ => by simp [Token.lexeme?]; rfl
  | false =>
    change Spells ['f', 'a', 'l', 's', 'e'] (boolean false)
    exact spells_value (by decide) fun rest _ => by simp [Token.lexeme?]; rfl

theorem spells_number {chars : List Char} {d : Decimal} {whole : Bool}
    (h : Token.Numbered chars d whole) {negative : Bool}
    (hd : (d.toBinary64 negative).isFinite = true) :
    Spells (signed negative chars) (number ⟨negative, d, whole⟩) := by
  obtain ⟨c, cs, hchars, hc, hl⟩ := Token.lexeme?_signed h.head negative
  have hnumber : Token.number ⟨negative, d, whole⟩ = .value (number ⟨negative, d, whole⟩) := by
    rw [Token.number, Numeral.value, if_pos hd]
  rw [hchars]
  refine spells_value hc fun rest hrest => ?_
  rw [hl (h.numeral negative rest hrest), hnumber]

/-- A finite number is read back with all its bits. -/
theorem spells_binary64 {x : Binary64} (hx : x.isFinite = true) :
    ∃ n, n.value = x ∧ Spells (ofBinary64 x).text.toList (number n) := by
  obtain ⟨chars, d, htext, hd, hvalue⟩ := Token.numbered_shortest hx
  refine ⟨⟨x.negative, d, false⟩, hvalue, ?_⟩
  rw [ofBinary64, if_pos hx, text, String.toList_ofList, htext]
  exact spells_number hd (by rw [hvalue, hx])

/-- A natural number of sixty-four bits is read back from its digits. -/
theorem spells_natural {n : ℕ} (hn : n < UInt64.size) :
    ∃ m, m.natural? = some n ∧ Spells (number (.ofNat n)).text.toList (number m) := by
  refine ⟨⟨false, ⟨n, 0⟩, true⟩, rfl, ?_⟩
  have htext : (number (.ofNat n)).text.toList = signed false (Nat.toDigits 10 n) := by
    simp [text, Numeral.text, Numeral.ofNat]
  rw [htext]
  exact spells_number (Token.numbered_digits n) (Decimal.isFinite_natural hn)

/-- A name, a colon and a value are a member of the object around them. -/
theorem readFrom?_member {chars : List Char} (h : Spells chars v) (name : String)
    (outer : List Frame) (members : List (String × Json)) (empty : Bool) {rest : List Char}
    (hrest : Token.Stop rest) :
    readFrom? ⟨outer, .name (some members) empty⟩ ((quote name).toList ++ ':' :: (chars ++ rest)) =
      readFrom? ⟨.object (some members) (some name) :: outer, .complete v⟩ rest := by
  have hname : State.step? ⟨outer, .name (some members) empty⟩ (.string (some name)) =
      some ⟨outer, .colon (some members) (some name)⟩ := rfl
  rw [readFrom?_quote hname, readFrom?_cons (by decide) (t := .colon) (n := 0) rfl rfl]
  exact h _ _ rest hrest

/-- A comma or a bracket puts the value that was read into the object around it. -/
theorem readFrom?_comma (outer : List Frame) (members : List (String × Json)) (name : String)
    (cs : List Char) :
    readFrom? ⟨.object (some members) (some name) :: outer, .complete v⟩ (',' :: cs) =
      readFrom? ⟨outer, .name (some ((name, v) :: members)) false⟩ cs :=
  readFrom?_cons (t := .comma) (n := 0) (by decide) rfl rfl

theorem readFrom?_brace (outer : List Frame) (members : List (String × Json)) (name : String)
    (cs : List Char) :
    readFrom? ⟨.object (some members) (some name) :: outer, .complete v⟩ ('\x7d' :: cs) =
      readFrom? ⟨outer, .complete (object ((name, v) :: members).reverse)⟩ cs :=
  readFrom?_cons (t := .closeObject) (n := 0) (by decide) rfl rfl

/-- Members with values that are read are read in their order, behind those that were before. -/
theorem readFrom?_members {members values : List (String × Json)}
    (h : List.Forall₂ (fun m v => m.1 = v.1 ∧ Spells m.2.text.toList v.2) members values)
    (hne : members ≠ []) (outer : List Frame) (done : List (String × Json)) (empty : Bool)
    (rest : List Char) :
    readFrom? ⟨outer, .name (some done) empty⟩ ((membersText members).toList ++ '\x7d' :: rest) =
      readFrom? ⟨outer, .complete (object (done.reverse ++ values))⟩ rest := by
  induction h generalizing done empty with
  | nil => exact absurd rfl hne
  | @cons m v members values hm hrest ih =>
    obtain ⟨name, v⟩ := v
    obtain ⟨name, value⟩ := m
    obtain ⟨rfl, hv⟩ := hm
    cases members with
    | nil =>
      cases hrest
      have htext : (membersText [(name, value)]).toList ++ '\x7d' :: rest =
          (quote name).toList ++ ':' :: (value.text.toList ++ '\x7d' :: rest) := by
        simp [membersText]
      rw [htext, readFrom?_member hv name outer done empty (.brace rest), readFrom?_brace,
        List.reverse_cons]
    | cons next members =>
      have htext : (membersText ((name, value) :: next :: members)).toList ++ '\x7d' :: rest =
          (quote name).toList ++ ':' :: (value.text.toList ++
            ',' :: ((membersText (next :: members)).toList ++ '\x7d' :: rest)) := by
        simp [membersText]
      rw [htext, readFrom?_member hv name outer done empty (.comma _), readFrom?_comma,
        ih (by simp), List.reverse_cons, List.append_assoc]
      rfl

theorem spells_object {members values : List (String × Json)}
    (h : List.Forall₂ (fun m v => m.1 = v.1 ∧ Spells m.2.text.toList v.2) members values) :
    Spells (object members).text.toList (object values) := by
  intro outer empty rest _
  have htext : (object members).text.toList ++ rest =
      '\x7b' :: ((membersText members).toList ++ '\x7d' :: rest) := by simp [text]
  have hopen (cs : List Char) : readFrom? ⟨outer, .value empty⟩ ('\x7b' :: cs) =
      readFrom? ⟨outer, .name (some []) true⟩ cs :=
    readFrom?_cons (t := .openObject) (n := 0) (by decide) rfl rfl
  rw [htext, hopen]
  by_cases hne : members = []
  · subst hne
    cases h
    exact readFrom?_cons (t := .closeObject) (n := 0) (by decide) rfl rfl
  · exact readFrom?_members h hne outer [] true rest

end Reader
end Criteria.Json
