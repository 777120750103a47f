import Criteria.Proofs.Canonical
import Criteria.Proofs.Evaluation.Walk
import Mathlib

/-! The names of attributes. What the check of an expression takes for a name is what the scanner
reads as one: letters, digits and underscores, not a digit first, and no keyword. -/
namespace Criteria

namespace Text

/-- The keywords in capitals. -/
def reserved : List String := ["AND", "OR", "NOT", "TRUE", "FALSE"]

/-- Equality of texts but for the case of the letters from `a` to `z`. -/
def SameLetters (v w : String) : Prop := v.toList.map Char.toLower = w.toList.map Char.toLower

/-- A letter from `a` to `z`, small or capital, or an underscore. -/
def Letter (c : Char) : Prop := ('A' ≤ c ∧ c ≤ 'Z') ∨ ('a' ≤ c ∧ c ≤ 'z') ∨ c = '_'

/-- The texts that can name an attribute. -/
structure Nameable (name : String) : Prop where
  shape : ∃ c cs, name.toList = c :: cs ∧ Letter c ∧
    ∀ d ∈ cs, Letter d ∨ ('0' ≤ d ∧ d ≤ '9')
  unreserved : ∀ w ∈ reserved, ¬ SameLetters w name

theorem isWordStart_iff_letter (c : Char) : isWordStart c = true ↔ Letter c := by
  rw [isWordStart_iff, Letter, or_assoc]
  simp only [Char.le_def, UInt32.le_iff_toNat_le, ← Char.toNat_inj]
  rfl

theorem isWordChar_iff (c : Char) :
    isWordChar c = true ↔ Letter c ∨ ('0' ≤ c ∧ c ≤ '9') := by
  have hsplit : isWordChar c = (isWordStart c || c.isDigit) := by
    simp only [isWordChar, isWordStart, Char.isAlphanum, Bool.or_assoc, Bool.or_comm c.isDigit]
  have hdigit : c.isDigit = true ↔ '0' ≤ c ∧ c ≤ '9' := by simp [Char.isDigit, Char.le_def]
  rw [hsplit, Bool.or_eq_true, isWordStart_iff_letter, hdigit]

theorem capitals_eq_iff (v w : String) : capitals v = capitals w ↔ SameLetters v w := by
  have hlower : Char.toLower ∘ Char.toUpper = Char.toLower := by
    funext c
    exact c.toLower_toUpper_eq_toLower
  have hupper : Char.toUpper ∘ Char.toLower = Char.toUpper := by
    funext c
    exact c.toUpper_toLower_eq_toUpper
  unfold capitals SameLetters
  rw [← String.toList_inj, String.toList_ofList, String.toList_ofList]
  constructor
  · intro h
    rw [← hlower, ← List.map_map, ← List.map_map, h]
  · intro h
    rw [← hupper, ← List.map_map, ← List.map_map, h]

theorem keyword?_eq_none_iff (word : String) :
    keyword? word = none ↔ ∀ w ∈ reserved, ¬ SameLetters w word := by
  have hcapitals : ∀ w ∈ reserved, capitals w = w := by decide +kernel
  have hreserved : (∀ w ∈ reserved, ¬ SameLetters w word) ↔ capitals word ∉ reserved := by
    constructor
    · intro h hmem
      apply h _ hmem
      rw [← capitals_eq_iff, hcapitals _ hmem]
    · intro h w hw hsame
      rw [← capitals_eq_iff, hcapitals w hw] at hsame
      exact h (hsame ▸ hw)
  rw [hreserved, keyword?]
  split <;> simp_all [reserved]

/-- The check of a name in terms of its characters. -/
theorem isName_iff_nameable (name : String) : isName name = true ↔ Nameable name := by
  constructor
  · intro h
    obtain ⟨c, cs, hname, hc, hcs, hkeyword⟩ := isWordStart_of_isName h
    refine ⟨⟨c, cs, hname, (isWordStart_iff_letter c).mp hc, fun d hd => ?_⟩, ?_⟩
    · exact (isWordChar_iff d).mp (hcs d hd)
    · exact (keyword?_eq_none_iff name).mp hkeyword
  · rintro ⟨⟨c, cs, hname, hc, hcs⟩, hreserved⟩
    have hall : cs.all isWordChar = true :=
      List.all_eq_true.mpr fun d hd => (isWordChar_iff d).mpr (hcs d hd)
    simp only [isName, hname, (isWordStart_iff_letter c).mpr hc, hall,
      (keyword?_eq_none_iff name).mpr hreserved, Option.isNone_none, Bool.and_self]

end Text

/-- A name is scanned as one identifier, and what is scanned as an identifier is a name. -/
theorem Token.scan_eq_identifier_iff (name : String) :
    scan name = .ok [⟨.identifier name, name, 0⟩] ↔ Text.isName name = true := by
  constructor
  · intro h
    obtain ⟨q, hsplits⟩ := splits_of_scanFrom h
    exact hsplits.sound _ List.mem_cons_self
  · intro h
    have hspells : Spells name.toList (.identifier name) [] := spells_name h .nil
    have hsplits := hspells.splits 0
    rw [List.append_nil, String.ofList_toList] at hsplits
    exact hsplits.scanFrom_eq_ok

namespace Expr

variable {e : Expr} {name : String}

theorem isName_of_defect? (he : e.defect? = none) (hname : name ∈ e.attributes) :
    Text.isName name = true := by
  obtain ⟨c, hc, rfl⟩ := mem_attributes_iff.mp hname
  exact (valid_of_defect? he).isName c hc

/-- A name is an attribute of some rule that can be written. -/
theorem exists_parse_of_isName (h : Text.isName name = true) :
    ∃ text e, parse text = .ok e ∧ name ∈ e.attributes := by
  let c : Comparison := ⟨name, .equal, .boolean true⟩
  have hc : c.defect? = none := c.defect?_eq_none_iff.mpr ⟨h, rfl⟩
  refine ⟨(leaf c).text, leaf c, parse_text_leaf hc, ?_⟩
  exact mem_attributes_iff.mpr ⟨c, by simp [leaves], rfl⟩

end Expr

/-- The check of names and the scanner agree. The check passes what is of the form of a name, what
is scanned as one identifier, and what is an attribute of a rule that can be read: these are the
same. So the attributes of an expression that passes its own check can be written in a rule. -/
theorem names_agree (name : String) :
    (Text.isName name = true ↔ Token.scan name = .ok [⟨.identifier name, name, 0⟩]) ∧
    (Text.isName name = true ↔ Text.Nameable name) ∧
    (Text.isName name = true ↔ ∃ text e, Expr.parse text = .ok e ∧ name ∈ e.attributes) ∧
    ∀ e : Expr, e.validate = .ok () → name ∈ e.attributes →
      Token.scan name = .ok [⟨.identifier name, name, 0⟩] := by
  refine ⟨?scanned, ?shape, ?written, fun e he hname => ?valid⟩
  case scanned => exact (Token.scan_eq_identifier_iff name).symm
  case shape => exact Text.isName_iff_nameable name
  case written =>
    constructor
    · exact Expr.exists_parse_of_isName
    · rintro ⟨text, e, he, hname⟩
      exact Expr.isName_of_defect? (Expr.defect?_of_parse he) hname
  case valid =>
    rw [Token.scan_eq_identifier_iff]
    exact Expr.isName_of_defect? (Expr.validate_eq_ok_iff.mp he) hname

/-- A name that begins with a keyword, and four texts that are no names: an empty one, one with a
line feed at its end, one with a letter beyond `z` and a keyword in mixed letters. -/
theorem names_agree_android :
    let e : Expr := .leaf ⟨"ANDroid_1", .equal, .boolean true⟩
    e.validate = .ok () ∧ "ANDroid_1" ∈ e.attributes ∧
      Token.scan "ANDroid_1" = .ok [⟨.identifier "ANDroid_1", "ANDroid_1", 0⟩] ∧
      ∀ name ∈ ["", "a\n", "größe", "nOt"],
        Token.scan name ≠ .ok [⟨.identifier name, name, 0⟩] := by
  intro e
  have he : e.validate = .ok () := Expr.validate_eq_ok_iff.mpr (by decide +kernel)
  have hname : "ANDroid_1" ∈ e.attributes := by decide
  refine ⟨he, hname, (names_agree _).2.2.2 e he hname, fun name hmem => ?_⟩
  have hnone : ∀ name ∈ ["", "a\n", "größe", "nOt"], Text.isName name = false := by decide +kernel
  rw [ne_eq, ← (names_agree name).1, hnone name hmem]
  exact Bool.false_ne_true

end Criteria
