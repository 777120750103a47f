import Criteria.Proofs.Engine.Runs

/-! No call and no use of the memory makes an invalid expression. Whatever is read, combined, kept,
remembered or returned passes the check, though none of these runs it. -/
namespace Criteria

theorem valid_of_combine {nodes : Set Node} {fresh : ℕ} (h : Node.Arena nodes fresh)
    {rules : List Node} (hrules : ∀ n ∈ rules, n ∈ nodes ∧ n.expr.Valid) {s : Strategy}
    {deduplicate : Bool} {result : Node × ℕ}
    (hresult : combine rules s deduplicate fresh = .ok result) : result.1.expr.Valid := by
  obtain ⟨-, hcombined⟩ := combined_of_combine h (fun n hn => (hrules n hn).1) hresult
  exact Expr.valid_of_defect? (hcombined.defect?_eq_none fun n hn => (hrules n hn).2.defect)

theorem Memory.exists_known_read (m : Memory) {text : String} {e : Expr}
    (h : Expr.parse text = .ok e) : ∃ node, (m.read text).2.known[text]? = some node := by
  unfold read
  cases hknown : m.known[text]? with
  | some node => exact ⟨node, hknown⟩
  | none =>
    rw [h]
    exact ⟨_, Std.HashMap.getElem?_insert_self⟩

namespace Engine

variable {e e' : Engine} {m m' : Memory}

theorem serve_combineRules {ids : List RuleId} {strategy : Option Strategy} {node : Node}
    (h : (e.combineRules ids strategy).run m = (.ok node, m')) :
    e.serve m (.combineRules ids strategy) = (.ok (.node node), e, m') := by
  simp only [serve, answer, run_bind, run_ask, h]
  rfl

/-- A call returns valid nodes only. -/
theorem Reachable.valid_reply (h : Reachable e m) {request : Request} {reply : Reply}
    (hserve : e.serve m request = (.ok reply, e', m')) : ∀ n ∈ reply.nodes, n.expr.Valid := by
  obtain ⟨nodes, hm, he⟩ := h.sound
  obtain ⟨_, -, -, hresult⟩ := preserves_answer nodes request (e, m) ⟨hm, he⟩
  have hreply := hresult reply (congrArg Prod.fst hserve)
  exact fun n hn => Expr.valid_of_defect? (hreply n hn).2

end Engine

/-- All expressions are valid: those that texts spell, the combinations of valid ones, and, at any
time, those of the rules of an engine, of the texts that are remembered and of what a call
returns. -/
theorem valid_everywhere :
    (∀ {text : String} {e : Expr}, Expr.parse text = .ok e → e.Valid) ∧
    (∀ {nodes : Set Node} {fresh : ℕ} {rules : List Node} {s : Strategy} {deduplicate : Bool}
        {result : Node × ℕ}, Node.Arena nodes fresh →
        (∀ n ∈ rules, n ∈ nodes ∧ n.expr.Valid) →
        combine rules s deduplicate fresh = .ok result → result.1.expr.Valid) ∧
      ∀ {e : Engine} {m : Memory}, Engine.Reachable e m →
        (∀ id rule, e.rules.get? id = some rule → rule.node.expr.Valid) ∧
        (∀ (text : String) (node : Node), m.known[text]? = some node → node.expr.Valid) ∧
        ∀ request reply e' m', e.serve m request = (.ok reply, e', m') →
          ∀ node ∈ reply.nodes, node.expr.Valid := by
  refine ⟨fun hparse => Expr.valid_of_defect? (Expr.defect?_of_parse hparse),
    fun h hrules hresult => valid_of_combine h hrules hresult, fun {e m} h => ?_⟩
  obtain ⟨nodes, hm, he⟩ := h.sound
  refine ⟨fun id rule hrule => ?_, fun text node hnode => ?_, fun _ _ _ _ => h.valid_reply⟩
  · exact Expr.valid_of_defect? (he id rule hrule).defect
  · exact Expr.valid_of_defect? (Expr.defect?_of_parse (hm.known text node hnode).2)

/-- Two comparisons are read, combined as nodes, kept as the rules of an engine and combined by
it, while the text of one is remembered. -/
theorem valid_everywhere_zeros :
    let c : Comparison := ⟨"a", .less, .number ⟨0⟩⟩
    let d : Comparison := ⟨"a", .less, .number ⟨0x8000000000000000⟩⟩
    Expr.parse (Expr.leaf c).text = .ok (.leaf c) ∧ (Expr.leaf c).Valid ∧
    (∃ result, combine [.leaf 0 c, .leaf 1 d] .any true 2 = .ok result ∧ result.1.expr.Valid) ∧
    ∃ e m, Engine.Reachable e m ∧
      (∃ rule, e.rules.get? 1 = some rule ∧ rule.node.expr.Valid) ∧
      (∃ node, m.known[(Expr.leaf c).text]? = some node ∧ node.expr.Valid) ∧
      ∃ node m', e.serve m (.combineRules [1, 2] (some .any)) = (.ok (.node node), e, m') ∧
        node.expr.Valid := by
  intro c d
  obtain ⟨hread, hnodes, hengine⟩ := valid_everywhere
  have hc := Expr.parse_text_leaf (c.defect?_eq_none_iff.mpr ⟨by decide, by decide⟩)
  have hd := Expr.parse_text_leaf (d.defect?_eq_none_iff.mpr ⟨by decide, by decide⟩)
  have hdepth : (Expr.join .or (.leaf c) (.leaf d)).depth ≤ Expr.maxDepth := by
    rw [Expr.depth_join, Expr.depth_leaf, Expr.depth_leaf]
    decide
  refine ⟨hc, hread hc, ?_, ?_⟩
  · obtain ⟨result, hresult⟩ : ∃ result, combine [.leaf 0 c, .leaf 1 d] .any true 2 = .ok result :=
      exists_combine true 2 hdepth
    refine ⟨result, hresult, hnodes (.leaves c d) ?_ hresult⟩
    simp only [List.forall_mem_cons, Node.expr, hread hc, hread hd]
    simp
  · have hafter := Engine.reachable_after {} (Engine.creating (.leaf c) (.leaf d))
    obtain ⟨l, r, hl, hr, -, hfind⟩ := Engine.find_after_creating {} hc hd
    rw [← hl, ← hr] at hdepth
    generalize Engine.after {} (Engine.creating (.leaf c) (.leaf d)) = state at hafter hfind
    have hreach := hafter.read (Expr.leaf c).text
    obtain ⟨known, hknown⟩ := Memory.exists_known_read state.2 hc
    obtain ⟨node, m', hrun⟩ := Engine.run_combineRules _ (some .any) hfind hdepth
    have hserve := Engine.serve_combineRules hrun
    obtain ⟨hrules, htexts, hreplies⟩ := hengine hreach
    cases forall₂_of_mapM hfind with
    | cons hfirst _ =>
      have hget := Engine.find_eq_ok hfirst
      exact ⟨_, _, hreach, ⟨_, hget, hrules _ _ hget⟩, ⟨known, hknown, htexts _ _ hknown⟩,
        node, m', hserve, hreplies _ _ _ _ hserve node (by simp [Reply.nodes])⟩

end Criteria
