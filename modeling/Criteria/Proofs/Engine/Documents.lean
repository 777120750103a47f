import Criteria.Proofs.Engine.Runs
import Criteria.Proofs.Json.Expr

/-! The documents of rules that are kept. A document may have fewer levels than an expression, so
not all that is written for a rule is read back, neither for the rule nor for its expression. -/
namespace Criteria

namespace Rule

variable {r : Rule}

theorem id?_of_natural? {n : Numeral} {id : RuleId} (h : n.natural? = some id.toNat) :
    id? (.number n) = some id := by
  simp [id?, h, id.toNat_lt_size]

/-- The document that is found in the text of a rule. -/
theorem exists_parse? (h : r.node.expr.defect? = none) : ∃ id v, id? (.number id) = some r.id ∧
    r.node.expr.Documents v ∧ Json.parse? r.toJson.text =
      some (.object [("id", .number id), ("source_text", .string r.source), ("ast", v)]) := by
  obtain ⟨v, hv, hspells⟩ := Expr.exists_documents (Expr.valid_of_defect? h).isFinite
  obtain ⟨n, hn, hid⟩ := Json.Reader.spells_natural r.id.toNat_lt_size
  refine ⟨n, v, id?_of_natural? hn, hv, ?_⟩
  refine (Json.Reader.spells_object ?_).parse?
  exact .cons ⟨rfl, hid⟩ (.cons ⟨rfl, Json.Reader.spells_string r.source⟩
    (.cons ⟨rfl, hspells⟩ .nil))

/-- The text of a rule is read as its parts, with a new node, or refused, by how many levels the
expression has. The rule itself is one of the levels that a document may have. -/
theorem parse?_text (h : r.node.expr.defect? = none) (fresh : ℕ) :
    parse? r.toJson.text fresh = if r.node.expr.depth < Json.maxLevels then
      some (⟨r.id, r.source, (Node.ofExpr r.node.expr fresh).1⟩,
        (Node.ofExpr r.node.expr fresh).2) else none := by
  obtain ⟨id, v, hid, hv, hparse⟩ := exists_parse? h
  have hread : Expr.ofJson? (Json.maxLevels - 1) v = _ := hv.ofJson?
  rw [parse?, hparse, Option.bind_eq_bind, Option.bind_some]
  by_cases hlevels : r.node.expr.depth < Json.maxLevels
  · rw [if_pos (Nat.le_sub_one_of_lt hlevels)] at hread
    simp [ofJson?, Json.required?, Json.valuesAt, ofParts?, hid, hread, hlevels]
  · rw [if_neg fun hle => hlevels (Nat.lt_of_le_sub_one (by decide) hle)] at hread
    simp [ofJson?, Json.required?, Json.valuesAt, ofParts?, hread, hlevels]

end Rule

namespace Engine

variable {e : Engine} {m : Memory}

/-- The rules that an engine keeps are read back from their texts if they have less than 127 levels,
and their expressions if they have less than 128. All deeper ones are refused. -/
theorem read_back (h : Reachable e m) {id : RuleId} {rule : Rule} (hrule : e.find id = .ok rule)
    (fresh : ℕ) :
    (rule.node.expr.depth < 127 → ∃ copy next,
        Rule.parse? rule.toJson.text fresh = some (copy, next) ∧
        copy.id = rule.id ∧ copy.source = rule.source ∧ copy.node.expr = rule.node.expr) ∧
      (127 ≤ rule.node.expr.depth → Rule.parse? rule.toJson.text fresh = none) ∧
      Expr.ofJsonText rule.node.expr.toJson.text =
        if rule.node.expr.depth < 128 then .ok rule.node.expr else .error .malformedJson := by
  obtain ⟨nodes, -, he⟩ := h.sound
  have hdefect := (he id rule (find_eq_ok hrule)).defect
  have hparse := Rule.parse?_text hdefect fresh
  refine ⟨fun hlevels => ?_, fun hlevels => hparse.trans (if_neg (Nat.not_lt.mpr hlevels)), ?_⟩
  · exact ⟨_, _, hparse.trans (if_pos hlevels), rfl, rfl, Node.expr_ofExpr _ fresh⟩
  · rw [Expr.ofJsonText_text hdefect]
    exact if_congr Nat.lt_succ_iff.symm rfl rfl

/-- The calls that keep two ladders of a comparison, one that is read back and one that is too
deep. -/
def deepening : List Request :=
  let c : Comparison := ⟨"a", .equal, .boolean true⟩
  creating (.ladder c 125) (.ladder c 127)

theorem find_after_deepening : ∃ low high,
    (after {} deepening).1.find 1 = .ok low ∧ low.node.expr.depth = 126 ∧
      (after {} deepening).1.find 2 = .ok high ∧ high.node.expr.depth = 128 := by
  let c : Comparison := ⟨"a", .equal, .boolean true⟩
  have hc : c.defect? = none := c.defect?_eq_none_iff.mpr ⟨by decide, rfl⟩
  have hparse {n : ℕ} (hn : n < 256) :
      Expr.parse (Expr.ladder c (n + 1)).text = .ok (Expr.ladder c (n + 1)) := by
    refine Expr.parse_text_of_nesting_le (Expr.defect?_ladder hc ?_) ?_
    · exact Nat.add_lt_of_lt_sub (hn.trans (by decide))
    · exact (Expr.nesting_ladder c n).trans_le hn.le
  obtain ⟨low, high, hlow, hhigh, -, hfind⟩ :=
    find_after_creating {} (hparse (n := 124) (by decide)) (hparse (n := 126) (by decide))
  cases forall₂_of_mapM hfind with
  | cons hfirst hrest =>
    cases hrest with
    | cons hsecond _ =>
      refine ⟨_, _, hfirst, ?_, hsecond, ?_⟩
      · rw [hlow, Expr.depth_ladder]
      · rw [hhigh, Expr.depth_ladder]

/-- A kept rule that is read back and one that is not. -/
theorem read_back_deepening : ∃ low high, (after {} deepening).1.find 1 = .ok low ∧
    (after {} deepening).1.find 2 = .ok high ∧
    (∃ copy next, Rule.parse? low.toJson.text 0 = some (copy, next) ∧ copy.id = low.id ∧
      copy.source = low.source ∧ copy.node.expr = low.node.expr) ∧
    Expr.ofJsonText low.node.expr.toJson.text = .ok low.node.expr ∧
    Rule.parse? high.toJson.text 0 = none ∧
    Expr.ofJsonText high.node.expr.toJson.text = .error .malformedJson := by
  obtain ⟨low, high, hlow, hlowdepth, hhigh, hhighdepth⟩ := find_after_deepening
  have hreach := reachable_after {} deepening
  obtain ⟨hcopy, -, hread⟩ := read_back hreach hlow 0
  obtain ⟨-, hrefused, hdeep⟩ := read_back hreach hhigh 0
  rw [if_pos (by omega)] at hread
  rw [if_neg (by omega)] at hdeep
  exact ⟨low, high, hlow, hhigh, hcopy (by omega), hread, hrefused (by omega), hdeep⟩

/-- Not all that is kept after some calls is read back, be it as a rule or as an expression. -/
theorem not_forall_read_back : ¬ ∀ settings requests id rule,
    (after settings requests).1.find id = .ok rule →
      (∃ copy next, Rule.parse? rule.toJson.text 0 = some (copy, next)) ∨
        Expr.ofJsonText rule.node.expr.toJson.text = .ok rule.node.expr := by
  intro hall
  obtain ⟨-, rule, -, -, hrule, hdepth⟩ := find_after_deepening
  obtain ⟨nodes, -, he⟩ := (reachable_after {} deepening).sound
  have hdefect := (he 2 rule (find_eq_ok hrule)).defect
  rcases hall {} deepening 2 rule hrule with ⟨copy, next, hcopy⟩ | hread
  · rw [Rule.parse?_text hdefect, hdepth] at hcopy
    cases hcopy
  · rw [Expr.ofJsonText_text hdefect, hdepth] at hread
    cases hread

end Engine
end Criteria
