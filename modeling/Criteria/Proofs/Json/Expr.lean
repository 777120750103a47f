import Criteria.Fault
import Criteria.Proofs.Canonical
import Criteria.Proofs.Json.Reading

/-! Expressions as documents. What is written for a valid expression is read as this expression,
unless its levels are more than a document may have, and then nothing is read. -/
namespace Criteria

/-- A document that holds a scalar, whichever notation a number has in it. -/
structure Scalar.Documents (s : Scalar) (v : Json) : Prop where
  ofJson : Scalar.ofJson? v = some s
  isReadable : ∀ levels, v.isReadable levels = true
  spells : Json.Reader.Spells s.toJson.text.toList v

theorem Scalar.exists_documents {s : Scalar} (h : s.isFinite = true) : ∃ v, s.Documents v := by
  cases s with
  | boolean b =>
    exact ⟨.boolean b, rfl, fun levels => by cases levels <;> rfl, Json.Reader.spells_boolean b⟩
  | number x =>
    obtain ⟨n, hn, hspells⟩ := Json.Reader.spells_binary64 h
    exact ⟨.number n, by rw [Scalar.ofJson?, hn], fun levels => by cases levels <;> rfl, hspells⟩
  | string s =>
    exact ⟨.string s, rfl, fun levels => by cases levels <;> rfl, Json.Reader.spells_string s⟩

namespace Expr

/-- The documents that hold an expression. -/
inductive Documents : Expr → Json → Prop
  | leaf {c : Comparison} {value : Json} (hvalue : c.value.Documents value) :
      Documents (leaf c) (.object [("type", .string "comparison"), ("attribute", .string c.name),
        ("operator", .string c.operator.symbol), ("value", value)])
  | join {o : Connective} {l r : Expr} {left right : Json} (hl : Documents l left)
      (hr : Documents r right) :
      Documents (join o l r) (.object [("type", .string "logical"), ("op", .string o.word),
        ("left", left), ("right", right)])
  | not {e : Expr} {operand : Json} (he : Documents e operand) :
      Documents (not e) (.object [("type", .string "not"), ("operand", operand)])

variable {e f : Expr} {v : Json} {levels : ℕ}

theorem exists_documents (h : ∀ c ∈ e.leaves, c.value.isFinite = true) :
    ∃ v, e.Documents v ∧ Json.Reader.Spells e.toJson.text.toList v := by
  induction e with
  | leaf c =>
    obtain ⟨value, hvalue⟩ := Scalar.exists_documents (h c (by simp [leaves]))
    refine ⟨_, .leaf hvalue, Json.Reader.spells_object ?_⟩
    exact .cons ⟨rfl, Json.Reader.spells_string _⟩ (.cons ⟨rfl, Json.Reader.spells_string _⟩
      (.cons ⟨rfl, Json.Reader.spells_string _⟩ (.cons ⟨rfl, hvalue.spells⟩ .nil)))
  | join o l r ihl ihr =>
    rw [leaves, List.forall_mem_append] at h
    obtain ⟨left, hl, hleft⟩ := ihl h.1
    obtain ⟨right, hr, hright⟩ := ihr h.2
    refine ⟨_, .join hl hr, Json.Reader.spells_object ?_⟩
    exact .cons ⟨rfl, Json.Reader.spells_string _⟩ (.cons ⟨rfl, Json.Reader.spells_string _⟩
      (.cons ⟨rfl, hleft⟩ (.cons ⟨rfl, hright⟩ .nil)))
  | not e ih =>
    obtain ⟨operand, he, hoperand⟩ := ih h
    refine ⟨_, .not he, Json.Reader.spells_object ?_⟩
    exact .cons ⟨rfl, Json.Reader.spells_string _⟩ (.cons ⟨rfl, hoperand⟩ .nil)

/-- A document has a level for each level of the expression. -/
theorem Documents.isReadable_iff (h : e.Documents v) :
    v.isReadable levels = true ↔ e.depth ≤ levels := by
  induction h generalizing levels with
  | leaf hvalue =>
    cases levels with
    | zero => simp [Json.isReadable]
    | succ levels => simp [Json.isReadable, hvalue.isReadable]
  | join _ _ ihl ihr =>
    cases levels with
    | zero => simp [Json.isReadable]
    | succ levels =>
      rw [depth_join, Nat.add_le_add_iff_right, Nat.max_le, ← ihl, ← ihr]
      simp [Json.isReadable]
  | not _ ih =>
    cases levels with
    | zero => simp [Json.isReadable]
    | succ levels => simp [Json.isReadable, ih]

theorem ofSymbol?_symbol (o : Operator) : Operator.ofSymbol? o.symbol = some o := by
  cases o <;> rfl

theorem ofWord?_word (o : Connective) : Connective.ofWord? o.word = some o := by
  cases o <;> rfl

/-- A document is read as the expression that it holds. -/
theorem Documents.ofJsonWithin? (h : e.Documents v) (hlevels : e.depth ≤ levels) (nested : Bool) :
    Expr.ofJsonWithin? levels nested v = some e := by
  induction h generalizing levels nested with
  | @leaf c value hvalue =>
    rw [depth_leaf] at hlevels
    obtain ⟨levels, rfl⟩ := Nat.exists_eq_add_of_le' hlevels
    simp [Expr.ofJsonWithin?, form?, Form.ofJson?, parts?, Form.parts, Json.required?,
      Json.valuesAt, spelled?, ofSymbol?_symbol, hvalue.ofJson]
  | @join o l r left right _ _ ihl ihr =>
    rw [depth_join] at hlevels
    obtain ⟨levels, rfl⟩ := Nat.exists_eq_add_of_le' (Nat.le_of_add_left_le hlevels)
    obtain ⟨hl, hr⟩ := Nat.max_le.1 (Nat.le_of_succ_le_succ hlevels)
    simp [Expr.ofJsonWithin?, form?, Form.ofJson?, parts?, Form.parts, Json.required?,
      Json.valuesAt, spelled?, ofWord?_word, ihl hl true, ihr hr true]
  | @not e operand _ ih =>
    rw [depth_not] at hlevels
    obtain ⟨levels, rfl⟩ := Nat.exists_eq_add_of_le' (Nat.le_of_add_left_le hlevels)
    simp [Expr.ofJsonWithin?, form?, Form.ofJson?, parts?, Form.parts, Json.required?,
      Json.valuesAt, ih (Nat.le_of_succ_le_succ hlevels) true]

/-- The document that is found in the text of a valid expression. -/
theorem exists_parse? (he : e.defect? = none) :
    ∃ v, e.Documents v ∧ Json.parse? e.toJson.text = some v := by
  obtain ⟨v, hv, hspells⟩ := exists_documents (valid_of_defect? he).isFinite
  exact ⟨v, hv, hspells.parse?⟩

/-- A document is refused, or it is read as the expression that it holds. -/
theorem Documents.ofJson? (h : e.Documents v) :
    Expr.ofJson? levels v = if e.depth ≤ levels then some e else none := by
  rw [Expr.ofJson?]
  by_cases hlevels : e.depth ≤ levels
  · rw [if_pos (h.isReadable_iff.mpr hlevels), if_pos hlevels, h.ofJsonWithin? hlevels]
  · rw [if_neg (mt h.isReadable_iff.mp hlevels), if_neg hlevels]

/-- No document holds two expressions. -/
theorem Documents.unique (he : e.Documents v) (hf : f.Documents v) : e = f := by
  have hread {g : Expr} (hg : g.Documents v) (hlevels : g.depth ≤ max e.depth f.depth) :=
    hg.ofJsonWithin? hlevels false
  exact Option.some.inj ((hread he (Nat.le_max_left _ _)).symm.trans
    (hread hf (Nat.le_max_right _ _)))

/-- The text that is written for a valid expression is read as this expression or refused, by how
many levels the expression has. -/
theorem ofJsonText_text (he : e.defect? = none) : ofJsonText e.toJson.text =
    if e.depth ≤ Json.maxLevels then .ok e else .error .malformedJson := by
  obtain ⟨v, hv, hparse⟩ := exists_parse? he
  rw [ofJsonText, parseJson?, hparse, Option.bind_eq_bind, Option.bind_some, hv.ofJson?]
  by_cases hlevels : e.depth ≤ Json.maxLevels
  · simp only [if_pos hlevels, validate_eq_ok_iff.mpr he]
    rfl
  · simp only [if_neg hlevels]

theorem eq_of_text_eq (he : e.defect? = none) (hf : f.defect? = none)
    (h : e.toJson.text = f.toJson.text) : e = f := by
  obtain ⟨v, hv, hparse⟩ := exists_parse? he
  obtain ⟨w, hw, hparse'⟩ := exists_parse? hf
  rw [← h, hparse, Option.some.injEq] at hparse'
  exact hv.unique (hparse' ▸ hw)

/-- Writing is faithful. A valid expression of less than 128 levels is read back from its text, a
deeper one is refused and not mistaken for another, and no two valid expressions have one text. -/
theorem text_faithful (he : e.validate = .ok ()) :
    ofJsonText e.toJson.text = (if e.depth < 128 then .ok e else .error .malformedJson) ∧
      ∀ f : Expr, f.validate = .ok () → f.toJson.text = e.toJson.text → f = e := by
  rw [validate_eq_ok_iff] at he
  refine ⟨?_, fun f hf htext => eq_of_text_eq (validate_eq_ok_iff.mp hf) he htext⟩
  rw [ofJsonText_text he]
  exact if_congr Nat.lt_succ_iff.symm rfl rfl

/-- Ladders of a comparison with a string of control characters and one with a negative zero, as
deep as can be read back and one level deeper. -/
theorem text_faithful_ladder :
    let c : Comparison := ⟨"a_1", .notEqual, .string "\x00\"\\\n\u2028😀"⟩
    let d : Comparison := ⟨"a_1", .notEqual, .number ⟨0x8000000000000000⟩⟩
    (∀ e ∈ [ladder c 126, ladder d 126, ladder c 127, ladder d 127], e.validate = .ok ()) ∧
      ofJsonText (ladder c 126).toJson.text = .ok (ladder c 126) ∧
      ofJsonText (ladder d 126).toJson.text = .ok (ladder d 126) ∧
      ofJsonText (ladder c 127).toJson.text = .error .malformedJson ∧
      (ladder d 127).toJson.text ≠ (ladder c 127).toJson.text := by
  intro c d
  have hc : c.defect? = none := c.defect?_eq_none_iff.mpr ⟨by decide, by decide⟩
  have hd : d.defect? = none := d.defect?_eq_none_iff.mpr ⟨by decide, by decide⟩
  have hvalid {b : Comparison} (hb : b.defect? = none) {n : ℕ} (hn : n < maxDepth) :
      (ladder b n).validate = .ok () := validate_eq_ok_iff.mpr (defect?_ladder hb hn)
  have hread {b : Comparison} (hb : b.defect? = none) :
      ofJsonText (ladder b 126).toJson.text = .ok (ladder b 126) := by
    rw [(text_faithful (hvalid hb (by decide))).1, depth_ladder]
    rfl
  obtain ⟨hdeep, hunique⟩ := text_faithful (hvalid hc (n := 127) (by decide))
  rw [depth_ladder, if_neg (by decide)] at hdeep
  refine ⟨?_, hread hc, hread hd, hdeep, fun htext => ?_⟩
  · have hrungs {b : Comparison} (hb : b.defect? = none) :=
      And.intro (hvalid hb (n := 126) (by decide)) (hvalid hb (n := 127) (by decide))
    simp [hrungs hc, hrungs hd]
  · have heq := congrArg leaves (hunique _ (hvalid hd (by decide)) htext)
    simp [ladder, leaves, c, d] at heq

end Expr
end Criteria
