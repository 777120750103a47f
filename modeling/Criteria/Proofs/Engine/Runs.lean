import Criteria.Proofs.Canonical
import Criteria.Proofs.Engine.Reachable

/-! Runs of an engine from its beginning, and calls that are bound to succeed: of a text that can be
read, and of rules whose combination is not too deep. -/
namespace Criteria

theorem Remembering.run_read {nodes : Set Node} {m : Memory} (hm : m.Sound nodes) {text : String}
    {e : Expr} (h : Expr.parse text = .ok e) :
    ∃ n m', (read text).run m = (.ok n, m') ∧ n.expr = e := by
  simp only [read, ExceptT.run, Memory.read]
  cases hknown : m.known[text]? with
  | some n =>
    obtain ⟨-, hn⟩ := hm.known text n hknown
    exact ⟨n, m, rfl, Except.ok.inj (hn.symm.trans h)⟩
  | none =>
    rw [h]
    exact ⟨_, _, rfl, Node.expr_ofExpr e m.fresh⟩

theorem Remembering.run_combine (m : Memory) {first second : Node} {rest : List Node}
    {s : Strategy} (deduplicate : Bool)
    (h : (Expr.chain s.connective first.expr ((second :: rest).map Node.expr)).depth ≤
      Expr.maxDepth) :
    ∃ n m', (combine (first :: second :: rest) s deduplicate).run m = (.ok n, m') := by
  obtain ⟨⟨n, fresh⟩, hresult⟩ := exists_combine deduplicate m.fresh h
  simp only [combine, ExceptT.run, hresult]
  exact ⟨_, _, rfl⟩

namespace Engine

variable {nodes : Set Node} {e : Engine} {m : Memory}

/-- The engine and the memory after some calls of a new engine. -/
def after (settings : Settings) (requests : List Request) : Engine × Memory :=
  requests.foldl (fun state request => (state.1.serve state.2 request).2) (ofSettings settings, {})

theorem after_concat (settings : Settings) (requests : List Request) (request : Request) :
    after settings (requests ++ [request]) =
      ((after settings requests).1.serve (after settings requests).2 request).2 := by
  simp only [after, List.foldl_append, List.foldl_cons, List.foldl_nil]

theorem reachable_after (settings : Settings) (requests : List Request) :
    Reachable (after settings requests).1 (after settings requests).2 := by
  induction requests using List.reverseRecOn with
  | nil => exact .start settings
  | append_singleton requests request ih =>
    rw [after_concat]
    exact .call ih request

theorem serve_create (hm : m.Sound nodes) {text : String} {expr : Expr}
    (h : Expr.parse text = .ok expr) : ∃ node m', node.expr = expr ∧ e.serve m (.create text) =
      (.ok (.rule ⟨e.rules.next, text, node⟩), e.keep text node, m') := by
  obtain ⟨node, m', hread, hnode⟩ := Remembering.run_read hm h
  refine ⟨node, m', hnode, ?_⟩
  simp only [serve, answer, create, run_bind, run_ask, hread]
  rfl

theorem run_combineRules (m : Memory) {ids : List RuleId} (strategy : Option Strategy)
    {first second : Rule} {rest : List Rule}
    (hfind : ids.mapM e.find = .ok (first :: second :: rest))
    (hdepth : (Expr.chain (strategy.getD e.settings.strategy).connective first.node.expr
      (((second :: rest).map Rule.node).map Node.expr)).depth ≤ Expr.maxDepth) :
    ∃ node m', (e.combineRules ids strategy).run m = (.ok node, m') := by
  obtain ⟨node, m', hcombine⟩ := Remembering.run_combine m e.settings.deduplicate hdepth
  refine ⟨node, m', ?_⟩
  simp only [combineRules, hfind, run_bind, run_liftM, combineNodes, List.map_cons]
  exact hcombine

theorem run_saveCombined {m' : Memory} {ids : List RuleId} {strategy : Option Strategy}
    {node : Node} (h : (e.combineRules ids strategy).run m = (.ok node, m')) :
    (saveCombined ids strategy).run (e, m) =
      (.ok ⟨e.rules.next, node.expr.text, node⟩, e.keep node.expr.text node, m') := by
  simp only [saveCombined, run_bind, run_ask, h]
  rfl

/-- A combination is made before it is kept. -/
theorem exists_of_run_saveCombined {e' : Engine} {m' : Memory} {ids : List RuleId}
    {strategy : Option Strategy} {rule : Rule}
    (h : (saveCombined ids strategy).run (e, m) = (.ok rule, e', m')) :
    ∃ node, (e.combineRules ids strategy).run m = (.ok node, m') ∧
      rule = ⟨e.rules.next, node.expr.text, node⟩ ∧ e' = e.keep node.expr.text node := by
  rcases hrun : (e.combineRules ids strategy).run m with ⟨fault | node, m₁⟩
  · simp only [saveCombined, run_bind, run_ask, hrun] at h
    cases h
  · rw [run_saveCombined hrun] at h
    cases h
    exact ⟨node, rfl, rfl, rfl⟩

theorem serve_saveCombined {m' : Memory} {ids : List RuleId} {strategy : Option Strategy}
    {node : Node} (h : (e.combineRules ids strategy).run m = (.ok node, m')) :
    (e.serve m (.saveCombined ids strategy)).2 = (e.keep node.expr.text node, m') := by
  simp only [serve, answer, run_bind, run_saveCombined h]
  rfl

variable (settings : Settings) (requests : List Request)

/-- One more rule of a text that can be read. -/
theorem after_create {text : String} {expr : Expr} (h : Expr.parse text = .ok expr) :
    ∃ node, node.expr = expr ∧ (after settings (requests ++ [.create text])).1 =
      (after settings requests).1.keep text node := by
  obtain ⟨nodes, hm, -⟩ := (reachable_after settings requests).sound
  obtain ⟨node, m', hnode, hserve⟩ := serve_create hm h
  exact ⟨node, hnode, by rw [after_concat, hserve]⟩

/-- One more rule that combines others. -/
theorem after_saveCombined {ids : List RuleId} (s : Strategy) {first second : Rule}
    {rest : List Rule}
    (hfind : ids.mapM (after settings requests).1.find = .ok (first :: second :: rest))
    (hdepth : (Expr.chain s.connective first.node.expr
      (((second :: rest).map Rule.node).map Node.expr)).depth ≤ Expr.maxDepth) :
    ∃ node, Combined ((first :: second :: rest).map Rule.node) s node.expr ∧
      (after settings (requests ++ [.saveCombined ids (some s)])).1 =
        (after settings requests).1.keep node.expr.text node := by
  obtain ⟨nodes, hm, he⟩ := (reachable_after settings requests).sound
  obtain ⟨node, m', hrun⟩ := run_combineRules (after settings requests).2 (some s) hfind hdepth
  obtain ⟨_, _, _, hresult⟩ := he.combineRules ids (some s) _ hm
  obtain ⟨_, _, rules, hrules, hcombined⟩ := hresult node (by rw [hrun])
  cases hrules.symm.trans hfind
  exact ⟨node, hcombined, by rw [after_concat, serve_saveCombined hrun]⟩

/-- Calls that keep the canonical texts of two expressions. -/
def creating (first second : Expr) : List Request := [.create first.text, .create second.text]

/-- The first two rules of an engine are found under one and two. -/
theorem find_after_creating {first second : Expr} (hfirst : Expr.parse first.text = .ok first)
    (hsecond : Expr.parse second.text = .ok second) :
    ∃ l r : Node, l.expr = first ∧ r.expr = second ∧
      (after settings (creating first second)).1.rules.next = 3 ∧
      [1, 2].mapM (after settings (creating first second)).1.find =
        .ok [⟨1, first.text, l⟩, ⟨2, second.text, r⟩] := by
  obtain ⟨l, hl, hkeepl⟩ := after_create settings [] hfirst
  obtain ⟨r, hr, hkeepr⟩ := after_create settings [.create first.text] hsecond
  have hkept : (after settings (creating first second)).1 =
      ((ofSettings settings).keep first.text l).keep second.text r :=
    hkeepr.trans (congrArg (keep · second.text r) hkeepl)
  have hnext : ((ofSettings settings).keep first.text l).rules.next = 2 := rfl
  refine ⟨l, r, hl, hr, by rw [hkept]; rfl, ?_⟩
  have hleft : (after settings (creating first second)).1.find 1 = .ok ⟨1, first.text, l⟩ := by
    rw [hkept, find_keep, hnext, if_neg (by decide), find_keep]
    exact if_pos rfl
  have hright : (after settings (creating first second)).1.find 2 = .ok ⟨2, second.text, r⟩ := by
    rw [hkept, find_keep, hnext, if_pos rfl]
  simp only [List.mapM_cons, List.mapM_nil, hleft, hright]
  rfl

end Engine
end Criteria
