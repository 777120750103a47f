import Criteria.Proofs.Engine.Remembering
import Criteria.Proofs.Rulebook

/-! The engines and memories that calls lead to. Every rule that is kept has a node without defects,
and its text is the one that was read or else the canonical one of the node. No call returns a node
with a defect. -/
namespace Criteria

/-- The node of a rule has no defect, and the rule's text is read as its expression or is the
canonical text of it. -/
structure Rule.Sound (nodes : Set Node) (r : Rule) : Prop where
  mem : r.node ∈ nodes
  defect : r.node.expr.defect? = none
  source : Expr.parse r.source = .ok r.node.expr ∨ r.source = r.node.expr.text

theorem Rule.sound_of_parse {nodes : Set Node} {r : Rule} (hmem : r.node ∈ nodes)
    (hparse : Expr.parse r.source = .ok r.node.expr) : r.Sound nodes :=
  ⟨hmem, Expr.defect?_of_parse hparse, .inl hparse⟩

/-- The nodes that a reply returns. -/
def Reply.nodes : Reply → List Node
  | done | verdict _ | names _ => []
  | rule r => [r.node]
  | rules rs => rs.map Rule.node
  | node n => [n]

/-- The nodes of a reply exist and have no defect. -/
def Reply.Sound (nodes : Set Node) (reply : Reply) : Prop :=
  ∀ n ∈ reply.nodes, n ∈ nodes ∧ n.expr.defect? = none

theorem Reply.sound_of_nodes_eq_nil {nodes : Set Node} {reply : Reply} (h : reply.nodes = []) :
    reply.Sound nodes := by
  simp [Sound, h]

theorem Reply.sound_node {nodes : Set Node} {n : Node} (hmem : n ∈ nodes)
    (hdefect : n.expr.defect? = none) : (Reply.node n).Sound nodes := by
  simpa [Sound, Reply.nodes] using And.intro hmem hdefect

theorem Rule.Sound.reply {nodes : Set Node} {r : Rule} (h : r.Sound nodes) :
    (Reply.rule r).Sound nodes := by
  simpa [Reply.Sound, Reply.nodes] using And.intro h.mem h.defect

namespace Engine

/-- All rules of the engine are sound. -/
def Sound (nodes : Set Node) (e : Engine) : Prop :=
  ∀ id rule, e.rules.get? id = some rule → rule.Sound nodes

/-- The engines and memories that are met. Calls of the engine come in any order with other uses of
the memory, which read texts, forget all of them or build nodes. -/
inductive Reachable : Engine → Memory → Prop
  | start (settings : Settings) : Reachable (ofSettings settings) {}
  | call {e m} (h : Reachable e m) (request : Request) :
      Reachable (e.serve m request).2.1 (e.serve m request).2.2
  | read {e m} (h : Reachable e m) (text : String) : Reachable e (m.read text).2
  | clear {e m} (h : Reachable e m) : Reachable e m.clear
  | build {e m} (h : Reachable e m) (count : ℕ) :
      Reachable e { m with fresh := m.fresh + count }

variable {nodes larger : Set Node} {e : Engine}

theorem Sound.mono (he : e.Sound nodes) (h : nodes ⊆ larger) : e.Sound larger := by
  intro id rule hrule
  obtain ⟨hmem, hdefect, hsource⟩ := he id rule hrule
  exact ⟨h hmem, hdefect, hsource⟩

/-- The engine with one more rule. -/
def keep (e : Engine) (source : String) (node : Node) : Engine :=
  { e with rules := (e.rules.insert source node).2 }

theorem Sound.keep (he : e.Sound nodes) {source : String} {node : Node}
    (h : Rule.Sound nodes ⟨e.rules.next, source, node⟩) : (e.keep source node).Sound nodes := by
  intro id rule hrule
  rw [Engine.keep, Rulebook.get?_insert] at hrule
  split at hrule
  · cases hrule
    exact h
  · exact he id rule hrule

theorem find_eq_ok {id : RuleId} {rule : Rule} (h : e.find id = .ok rule) :
    e.rules.get? id = some rule := by
  unfold find Rulebook.find at h
  split at h
  · rename_i hget
    cases h
    exact hget
  · cases h

theorem find_keep (e : Engine) (source : String) (node : Node) (id : RuleId) :
    (e.keep source node).find id =
      if e.rules.next = id then .ok ⟨e.rules.next, source, node⟩ else e.find id := by
  simp only [find, Rulebook.find, keep, Rulebook.get?_insert]
  by_cases hid : e.rules.next = id
  · simp only [if_pos hid]
    rfl
  · simp only [if_neg hid]

theorem Sound.list (he : e.Sound nodes) : (Reply.rules e.list).Sound nodes := by
  refine List.forall_mem_map.mpr fun rule hrule => ?_
  obtain ⟨id, hid⟩ := Rulebook.mem_toList_iff.mp hrule
  exact ⟨(he id rule hid).mem, (he id rule hid).defect⟩

theorem Sound.of_mem (he : e.Sound nodes) {ids : List RuleId} {rules : List Rule}
    (h : ids.mapM e.find = .ok rules) : ∀ rule ∈ rules, rule.Sound nodes := by
  have hall := forall₂_of_mapM h
  clear h
  induction hall with
  | nil => simp
  | cons hid _ ih => exact List.forall_mem_cons.mpr ⟨he _ _ (find_eq_ok hid), ih⟩

open Remembering

/-- The memory and the engine are sound in one arena. -/
def SoundState (nodes : Set Node) (state : Engine × Memory) : Prop :=
  state.2.Sound nodes ∧ state.1.Sound nodes

/-- What a combination of rules gives: a node of the chain of their expressions. -/
theorem Sound.combineRules (he : e.Sound nodes) (ids : List RuleId) (strategy : Option Strategy) :
    Preserves Memory.Sound nodes (e.combineRules ids strategy) fun n larger => n ∈ larger ∧
      n.expr.defect? = none ∧ ∃ rules, ids.mapM e.find = .ok rules ∧
        Combined (rules.map Rule.node) (strategy.getD e.settings.strategy) n.expr := by
  refine (preserves_liftM (P := fun rules larger => nodes ⊆ larger ∧ ids.mapM e.find = .ok rules)
    fun rules hrules => ⟨subset_rfl, hrules⟩).bind fun rules larger _ h => ?_
  obtain ⟨hlarger, hfind⟩ := h
  have hsound := (he.mono hlarger).of_mem hfind
  have hmem : ∀ n ∈ rules.map Rule.node, n ∈ larger :=
    List.forall_mem_map.mpr fun rule hrule => (hsound rule hrule).mem
  refine (preserves_combine hmem _ _).mono fun n _ _ hn => ⟨hn.1, ?_, rules, hfind, hn.2⟩
  exact hn.2.defect?_eq_none (List.forall_mem_map.mpr fun rule hrule => (hsound rule hrule).defect)

theorem preserves_lines (nodes : Set Node) (lines : List String) :
    Preserves Memory.Sound nodes (lines.mapM Remembering.read) fun rules larger =>
      ∀ n ∈ rules, n ∈ larger ∧ n.expr.defect? = none :=
  preserves_mapM (P := fun n larger => n ∈ larger ∧ n.expr.defect? = none)
    (fun hsub hn => ⟨hsub hn.1, hn.2⟩) fun line _ larger _ => (preserves_read larger line).mono
      fun _ _ _ hn => ⟨hn.1, Expr.defect?_of_parse hn.2⟩

theorem combineLines_preserves (e : Engine) (nodes : Set Node) (text : String)
    (strategy : Option Strategy) :
    Preserves Memory.Sound nodes (e.combineLines text strategy) fun n larger =>
      n ∈ larger ∧ n.expr.defect? = none := by
  refine (preserves_lines nodes _).bind fun lines larger _ hlines => ?_
  refine (preserves_combine (fun n hn => (hlines n hn).1) _ _).mono fun n _ _ hn => ⟨hn.1, ?_⟩
  exact hn.2.defect?_eq_none fun n hn => (hlines n hn).2

section Operations

variable {α : Type} {P : α → Set Node → Prop}

theorem run_ask (f : Engine → Remembering α) (e : Engine) (m : Memory) :
    (ask f).run (e, m) = (((f e).run m).1, e, ((f e).run m).2) := rfl

theorem preserves_ask {f : Engine → Remembering α}
    (h : ∀ e : Engine, e.Sound nodes → Preserves Memory.Sound nodes (f e) P) :
    Preserves SoundState nodes (ask f) P := by
  rintro ⟨e, m⟩ ⟨hm, he⟩
  obtain ⟨larger, hlarger, hm', hP⟩ := h e he m hm
  exact ⟨larger, hlarger, ⟨hm', he.mono hlarger⟩, hP⟩

/-- A sound rule is kept, whatever its number is. -/
theorem preserves_insert {source : String} {node : Node}
    (h : ∀ id, Rule.Sound nodes ⟨id, source, node⟩) :
    Preserves SoundState nodes (insert source node) fun rule larger => rule.Sound larger := by
  rintro ⟨e, m⟩ ⟨hm, he⟩
  refine ⟨nodes, subset_rfl, ⟨hm, he.keep (h e.rules.next)⟩, fun rule hrule => ?_⟩
  cases hrule
  exact h e.rules.next

/-- What is asked of the engine may fail, and then it stays as it was. -/
theorem run_ask_pure_bind {β : Type} (f : Engine → Except Fault α) (g : α → Operation β)
    (e : Engine) (m : Memory) :
    (ask pure >>= fun e => (liftM (f e) : Operation α) >>= g).run (e, m) =
      match f e with
      | .ok a => (g a).run (e, m)
      | .error fault => (.error fault, e, m) := by
  rw [run_bind]
  change ((liftM (f e) : Operation α) >>= g).run (e, m) = _
  rw [run_bind, run_liftM]
  cases f e <;> rfl

theorem run_replace (e : Engine) (m : Memory) (id : RuleId) (source : String) (node : Node) :
    (replace id source node).run (e, m) = match e.rules.replace id source node with
      | .ok (rule, rules) => (.ok rule, { e with rules }, m)
      | .error error => (.error (.store error), e, m) := by
  rw [replace, run_ask_pure_bind]
  cases e.rules.replace id source node <;> rfl

theorem run_delete (e : Engine) (m : Memory) (id : RuleId) :
    (delete id).run (e, m) = match e.rules.remove id with
      | .ok (_, rules) => (.ok (), { e with rules }, m)
      | .error error => (.error (.store error), e, m) := by
  rw [delete, run_ask_pure_bind]
  cases e.rules.remove id <;> rfl

theorem preserves_replace {id : RuleId} {source : String} {node : Node}
    (h : Rule.Sound nodes ⟨id, source, node⟩) :
    Preserves SoundState nodes (replace id source node) fun rule larger => rule.Sound larger := by
  rintro ⟨e, m⟩ ⟨hm, he⟩
  refine ⟨nodes, subset_rfl, ?_⟩
  rw [run_replace]
  cases hreplace : e.rules.replace id source node with
  | error error => exact ⟨⟨hm, he⟩, fun rule hrule => nomatch hrule⟩
  | ok kept =>
    obtain ⟨hrule, hget⟩ := Rulebook.get?_replace hreplace
    refine ⟨⟨hm, fun k rule hk => ?_⟩, fun rule heq => ?_⟩
    · rw [hget] at hk
      split at hk
      · cases hk
        rwa [hrule]
      · exact he k rule hk
    · cases heq
      rwa [hrule]

theorem preserves_delete (nodes : Set Node) (id : RuleId) :
    Preserves SoundState nodes (delete id) fun _ _ => True := by
  rintro ⟨e, m⟩ ⟨hm, he⟩
  refine ⟨nodes, subset_rfl, ?_, fun _ _ => trivial⟩
  rw [run_delete]
  cases hremove : e.rules.remove id with
  | error error => exact ⟨hm, he⟩
  | ok kept =>
    refine ⟨hm, fun k rule hk => ?_⟩
    rw [Rulebook.get?_remove hremove] at hk
    split at hk
    · cases hk
    · exact he k rule hk

theorem preserves_create (nodes : Set Node) (text : String) :
    Preserves SoundState nodes (create text) fun rule larger => rule.Sound larger :=
  (preserves_ask fun _ _ => preserves_read nodes text).bind fun _ _ _ hnode =>
    preserves_insert fun _ => Rule.sound_of_parse hnode.1 hnode.2

theorem preserves_modify (nodes : Set Node) (id : RuleId) (text : String) :
    Preserves SoundState nodes (modify id text) fun rule larger => rule.Sound larger :=
  (preserves_ask fun _ _ => preserves_read nodes text).bind fun _ _ _ hnode =>
    preserves_replace (Rule.sound_of_parse hnode.1 hnode.2)

theorem preserves_combineRules (nodes : Set Node) (ids : List RuleId)
    (strategy : Option Strategy) :
    Preserves SoundState nodes (ask fun e => e.combineRules ids strategy) fun n larger =>
      n ∈ larger ∧ n.expr.defect? = none :=
  preserves_ask fun _ he => (he.combineRules ids strategy).mono fun _ _ _ h => ⟨h.1, h.2.1⟩

/-- A combination that is kept has the canonical text of its node. -/
theorem preserves_saveCombined (nodes : Set Node) (ids : List RuleId)
    (strategy : Option Strategy) :
    Preserves SoundState nodes (saveCombined ids strategy) fun rule larger =>
      rule.Sound larger :=
  (preserves_combineRules nodes ids strategy).bind fun _ _ _ h =>
    preserves_insert fun _ => ⟨h.1, h.2, .inr rfl⟩

/-- No call leaves an unsound engine or returns an unsound node. -/
theorem preserves_answer (nodes : Set Node) (request : Request) :
    Preserves SoundState nodes (answer request) fun reply larger => reply.Sound larger := by
  have plain {α : Type} {f : Engine → Except Fault α} (reply : α → Reply)
      (hreply : ∀ a, (reply a).nodes = []) :
      Preserves SoundState nodes (do return reply (← ask fun e => f e))
        fun reply larger => reply.Sound larger :=
    (preserves_ask fun e _ => preserves_liftM (P := fun _ _ => True) fun _ _ => trivial).bind
      fun a _ _ _ => preserves_pure (Reply.sound_of_nodes_eq_nil (hreply a))
  cases request with
  | create text => exact (preserves_create nodes text).bind fun _ _ _ h => preserves_pure h.reply
  | get id =>
    refine (preserves_ask fun e he => preserves_liftM (P := fun rule larger => rule.Sound larger)
      fun rule hrule => he id rule (find_eq_ok hrule)).bind fun _ _ _ h => preserves_pure h.reply
  | modify id text =>
    exact (preserves_modify nodes id text).bind fun _ _ _ h => preserves_pure h.reply
  | delete id =>
    exact (preserves_delete nodes id).bind
      fun _ _ _ _ => preserves_pure (Reply.sound_of_nodes_eq_nil rfl)
  | list =>
    exact (preserves_ask (P := fun e larger => Sound larger e) fun _ he => preserves_pure he).bind
      fun _ _ _ he => preserves_pure he.list
  | combineRules ids strategy =>
    exact (preserves_combineRules nodes ids strategy).bind
      fun _ _ _ h => preserves_pure (Reply.sound_node h.1 h.2)
  | combineLines text strategy =>
    exact (preserves_ask fun e _ => e.combineLines_preserves nodes text strategy).bind
      fun _ _ _ h => preserves_pure (Reply.sound_node h.1 h.2)
  | saveCombined ids strategy =>
    exact (preserves_saveCombined nodes ids strategy).bind fun _ _ _ h => preserves_pure h.reply
  | evaluateRule id record => exact plain .verdict fun _ => rfl
  | evaluateRuleJson id text => exact plain .verdict fun _ => rfl
  | evaluateText text record =>
    exact (preserves_ask fun e _ => (preserves_read nodes text).bind fun node larger _ _ =>
      preserves_liftM (P := fun _ _ => True) fun _ _ => trivial).bind
        fun _ _ _ _ => preserves_pure (Reply.sound_of_nodes_eq_nil rfl)
  | evaluateNode node record => exact plain .verdict fun _ => rfl
  | attributes id => exact plain .names fun _ => rfl

end Operations

theorem Sound.serve {m : Memory} (hm : m.Sound nodes) (he : e.Sound nodes) (request : Request) :
    ∃ larger, (e.serve m request).2.2.Sound larger ∧ (e.serve m request).2.1.Sound larger := by
  obtain ⟨larger, -, hsound, -⟩ := preserves_answer nodes request (e, m) ⟨hm, he⟩
  exact ⟨larger, hsound⟩

/-- What can happen to an engine and the memory: a call of the engine, or another use of the memory,
which reads a text, forgets all of them or builds nodes. -/
inductive Event where
  | call (request : Request)
  | read (text : String)
  | clear
  | build (count : ℕ)

/-- The engine and the memory after one more event. -/
def Event.next (e : Engine) (m : Memory) : Event → Engine × Memory
  | call request => (e.serve m request).2
  | read text => (e, (m.read text).2)
  | clear => (e, m.clear)
  | build count => (e, { m with fresh := m.fresh + count })

/-- No event makes an engine or a memory unsound. -/
theorem Sound.next {m : Memory} (hm : m.Sound nodes) (he : e.Sound nodes) (event : Event) :
    ∃ larger, (event.next e m).2.Sound larger ∧ (event.next e m).1.Sound larger := by
  cases event with
  | call request => exact Sound.serve hm he request
  | read text =>
    obtain ⟨larger, hlarger, hread⟩ := hm.read text
    exact ⟨larger, hread, he.mono hlarger⟩
  | clear => exact ⟨nodes, hm.clear, he⟩
  | build count => exact ⟨nodes, hm.build count, he⟩

/-- All that is met is sound, in one arena for the engine and the memory. -/
theorem Reachable.sound {m : Memory} (h : Reachable e m) :
    ∃ nodes, m.Sound nodes ∧ e.Sound nodes := by
  induction h with
  | start settings =>
    refine ⟨∅, ⟨.empty 0, by simp⟩, ?_⟩
    intro id rule hrule
    simp [ofSettings, Rulebook.get?] at hrule
  | call h request ih =>
    obtain ⟨nodes, hm, he⟩ := ih
    exact Sound.next hm he (.call request)
  | read h text ih =>
    obtain ⟨nodes, hm, he⟩ := ih
    exact Sound.next hm he (.read text)
  | clear h ih =>
    obtain ⟨nodes, hm, he⟩ := ih
    exact Sound.next hm he .clear
  | build h count ih =>
    obtain ⟨nodes, hm, he⟩ := ih
    exact Sound.next hm he (.build count)

end Engine
end Criteria
