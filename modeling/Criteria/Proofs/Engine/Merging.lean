import Criteria.Proofs.Agreement
import Criteria.Proofs.Engine.Runs
import Criteria.Proofs.Evaluation.Errors

/-! The attributes of a combination. They are those of its rules, one rule after the other, without
the ones that an earlier rule has as well. -/
namespace Criteria

theorem Expr.attributes_chain (o : Connective) (first : Expr) (rest : List Expr) :
    (chain o first rest).attributes = ((first :: rest).flatMap attributes).eraseDups := by
  have hnames : (first :: rest).flatMap attributes = (first :: rest).flatMap fun e =>
      (e.leaves.map Comparison.name).eraseDups := by
    congr 1
    funext e
    exact e.attributes_eq
  rw [hnames, eraseDups_flatMap_eraseDups, attributes_eq, leaves_chain, ← List.flatMap_cons,
    List.map_flatMap]

theorem Combined.attributes_eq {rules : List Node} {s : Strategy} {e : Expr}
    (h : Combined rules s e) :
    e.attributes = (rules.flatMap fun n => n.expr.attributes).eraseDups := by
  obtain ⟨first, second, rest, rfl, hzeros⟩ := h.exists_chain
  rw [Expr.attributes_congr hzeros, Expr.attributes_chain, ← List.map_cons, List.flatMap_map]

namespace Engine

variable {e e' : Engine} {m m' : Memory} {ids : List RuleId} {strategy : Option Strategy}
  {rule : Rule} {rules : List Rule}

/-- The attributes of rules that are all found. -/
theorem mapM_attributes (h : ids.mapM e.find = .ok rules) :
    ids.mapM e.attributes = .ok (rules.map fun rule => rule.node.expr.attributes) := by
  apply mapM_of_forall₂
  apply List.forall₂_map_right_iff.mpr
  exact (forall₂_of_mapM h).imp fun _ _ => attributes_of_find

/-- A further rule leaves the others where they are. -/
theorem mapM_find_keep (h : ids.mapM e.find = .ok rules) (hid : e.rules.next ∉ ids)
    (source : String) (node : Node) : ids.mapM (e.keep source node).find = .ok rules := by
  have hall := forall₂_of_mapM h
  apply mapM_of_forall₂
  clear h
  induction hall with
  | nil => exact .nil
  | cons hfind _ ih =>
    rw [List.mem_cons, not_or] at hid
    have hsame := (find_keep e source node _).trans (if_neg hid.1)
    exact .cons (hsame.trans hfind) (ih hid.2)

/-- A rule that keeps a combination has the attributes of the rules that were combined, and these
keep theirs unless one of them is replaced by it. -/
theorem attributes_of_saveCombined (h : Reachable e m)
    (hrule : (saveCombined ids strategy).run (e, m) = (.ok rule, e', m')) :
    ∃ lists, ids.mapM e.attributes = .ok lists ∧
      e'.attributes rule.id = .ok lists.flatten.eraseDups ∧
      (rule.id ∉ ids → ids.mapM e'.attributes = .ok lists) := by
  obtain ⟨nodes, hm, he⟩ := h.sound
  obtain ⟨node, hnode, rfl, rfl⟩ := exists_of_run_saveCombined hrule
  obtain ⟨_, _, _, hresult⟩ := he.combineRules ids strategy m hm
  obtain ⟨_, _, rules, hfind, hcombined⟩ := hresult node (by rw [hnode])
  have hlists := mapM_attributes hfind
  refine ⟨_, hlists, ?_, fun hid => ?_⟩
  · have hkept := (find_keep e node.expr.text node _).trans (if_pos rfl)
    rw [attributes_of_find hkept, hcombined.attributes_eq, List.flatMap_map, List.flatMap_def]
  · exact mapM_attributes (mapM_find_keep hfind hid _ node)

end Engine

/-- The attributes of an expression are the names in its comparisons from left to right, each where
it stands first. So those of a combination are the attributes of its rules one after the other,
where an attribute of a rule is left out that an earlier one has as well, whether or not equal parts
are shared. This holds of nodes that are combined and of a combination that an engine keeps, and it
makes no difference whether its rules are asked before that or after. -/
theorem attributes_merged :
    (∀ e : Expr, e.attributes.Nodup ∧
      e.attributes = (e.leaves.map Comparison.name).eraseDups) ∧
    (∀ {nodes : Set Node} {fresh : ℕ} {rules : List Node} {s : Strategy} {deduplicate : Bool}
        {result : Node × ℕ}, Node.Arena nodes fresh → (∀ n ∈ rules, n ∈ nodes) →
        combine rules s deduplicate fresh = .ok result →
        result.1.expr.attributes = (rules.flatMap fun n => n.expr.attributes).eraseDups) ∧
      ∀ {e e' : Engine} {m m' : Memory} {ids : List RuleId} {strategy : Option Strategy}
        {rule : Rule}, Engine.Reachable e m →
        (Engine.saveCombined ids strategy).run (e, m) = (.ok rule, e', m') →
        ∃ lists, ids.mapM e.attributes = .ok lists ∧
          e'.attributes rule.id = .ok lists.flatten.eraseDups ∧
          (rule.id ∉ ids → ids.mapM e'.attributes = .ok lists) := by
  refine ⟨fun e => ⟨e.nodup_attributes, e.attributes_eq⟩, ?_, Engine.attributes_of_saveCombined⟩
  intro nodes fresh rules s deduplicate result h hrules hresult
  obtain ⟨-, hcombined⟩ := combined_of_combine h hrules hresult
  exact hcombined.attributes_eq

/-- Two rules that name attributes more than once, alone and together, with zeros of both signs in
like comparisons. They are combined as nodes that share their parts and kept as a rule. -/
theorem attributes_merged_zeros :
    let zero : Expr := .leaf ⟨"b", .less, .number ⟨0⟩⟩
    let minus : Expr := .leaf ⟨"b", .less, .number ⟨0x8000000000000000⟩⟩
    let a : Expr := .leaf ⟨"a", .equal, .boolean true⟩
    let c : Expr := .leaf ⟨"c", .equal, .string "IT"⟩
    let first : Expr := .join .or (.join .and zero a) (.not minus)
    let second : Expr := .join .and c (.join .or a minus)
    (first.attributes.Nodup ∧ first.attributes = ["b", "a"]) ∧
    (∃ l r result, l.expr = first ∧ r.expr = second ∧
      combine [l, r] .any true 11 = .ok result ∧ result.1.expr.attributes = ["b", "a", "c"]) ∧
    ∃ e e' m m' rule, Engine.Reachable e m ∧
      (Engine.saveCombined [1, 2] (some .all)).run (e, m) = (.ok rule, e', m') ∧
      e'.attributes rule.id = .ok ["b", "a", "c"] ∧
      [1, 2].mapM e'.attributes = .ok [["b", "a"], ["c", "a", "b"]] := by
  intro zero minus a c first second
  obtain ⟨hexpr, hnodes, hengine⟩ := attributes_merged
  have hfirst : first.attributes = ["b", "a"] := by decide
  have hsecond : second.attributes = ["c", "a", "b"] := by decide
  have hdepth (o : Connective) : (Expr.chain o first [second]).depth ≤ Expr.maxDepth := by
    rw [Expr.depth_eq_height]
    cases o <;> decide
  refine ⟨⟨(hexpr first).1, hfirst⟩, ?_, ?_⟩
  · obtain ⟨ls, -, hls, hl⟩ := (Node.Arena.empty 0).extends_ofExpr first
    obtain ⟨rs, hsub, hrs, hr⟩ := hls.extends_ofExpr second
    have hrules : ∀ n ∈ [(Node.ofExpr first 0).1, (Node.ofExpr second 6).1], n ∈ rs :=
      List.forall_mem_cons.mpr ⟨hsub hl, List.forall_mem_singleton.mpr hr⟩
    obtain ⟨result, hresult⟩ :
        ∃ result, combine [(Node.ofExpr first 0).1, (Node.ofExpr second 6).1] .any true 11 =
          .ok result := exists_combine true 11 (hdepth .or)
    refine ⟨_, _, result, Node.expr_ofExpr .., Node.expr_ofExpr .., hresult, ?_⟩
    rw [hnodes hrs hrules hresult]
    decide
  · have hparse {e : Expr} (hheight : e.height ≤ Expr.maxDepth) (hn : e.nesting ≤ Expr.maxNesting)
        (hleaves : ∀ c ∈ e.leaves, c.defect? = none) : Expr.parse e.text = .ok e :=
      Expr.parse_text_of_nesting_le
        ((Expr.defect?_eq_none_iff e).mpr ⟨e.depth_eq_height ▸ hheight, hleaves⟩) hn
    have hp : Expr.parse first.text = .ok first := hparse (by decide) (by decide) (by decide)
    have hq : Expr.parse second.text = .ok second := hparse (by decide) (by decide) (by decide)
    obtain ⟨l, r, hl, hr, hnext, hfind⟩ := Engine.find_after_creating {} hp hq
    have hreach := Engine.reachable_after {} (Engine.creating first second)
    have hrules : (Expr.join .and l.expr r.expr).depth ≤ Expr.maxDepth := by
      rw [hl, hr]
      exact hdepth .and
    obtain ⟨node, m', hrun⟩ := Engine.run_combineRules _ (some .all) hfind hrules
    have hsaved := Engine.run_saveCombined hrun
    obtain ⟨lists, hlists, hmerged, hothers⟩ := hengine hreach hsaved
    rw [Engine.mapM_attributes hfind, List.map_cons, List.map_singleton, hl, hr, hfirst, hsecond]
      at hlists
    cases hlists
    have hid : (Engine.after {} (Engine.creating first second)).1.rules.next ∉ [1, 2] := by
      rw [hnext]
      decide
    exact ⟨_, _, _, m', _, hreach, hsaved, hmerged, hothers hid⟩

end Criteria
