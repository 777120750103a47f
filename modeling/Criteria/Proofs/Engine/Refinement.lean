import Criteria.Proofs.Engine.Atomicity
import Criteria.Proofs.Engine.Memory
import Criteria.Proofs.Ledger

/-! An engine does what the ledger does. The memory is not seen: whatever it holds, each call gives
what the same call of the ledger gives, and leaves rules that look like those of the ledger. -/
namespace Criteria

def Rule.entry (r : Rule) : Ledger.Entry := ⟨r.source, r.node.expr⟩

namespace Ledger

variable {α β γ δ : Type}

/-- The ledger looks like the engine. -/
structure Mirrors (l : Ledger) (e : Engine) : Prop where
  settings : l.settings = e.settings
  next : l.next = e.rules.next
  entries : ∀ id, l.entries[id]? = (e.rules.get? id).map Rule.entry
  keyed : e.rules.Keyed

section Mirrors

variable {l : Ledger} {e : Engine}

theorem mirrors_start (settings : Settings) : Mirrors { settings } (.ofSettings settings) :=
  ⟨rfl, rfl, by simp [Engine.ofSettings, Rulebook.get?], .empty⟩

theorem view_entry {rule : Rule} {id : RuleId} (h : rule.id = id) :
    rule.entry.view id = rule.view := by
  subst h
  rfl

theorem Mirrors.list_eq (h : Mirrors l e) : e.list.map Rule.view = l.list := by
  have hequiv : l.entries.Equiv (e.rules.rules.map fun _ => Rule.entry) := by
    refine Std.TreeMap.Equiv.of_forall_constGet?_eq fun id => ?_
    rw [Std.TreeMap.getElem?_map]
    exact h.entries id
  rw [list, hequiv.toList_eq, Std.TreeMap.toList_map, List.map_map, Engine.list,
    Rulebook.toList_eq_map, List.map_map]
  refine List.map_congr_left fun entry hentry => ?_
  have hid : entry.2.id = entry.1 :=
    h.keyed entry.1 entry.2 (Std.TreeMap.mem_toList_iff_getElem?_eq_some.mp hentry)
  exact (view_entry hid).symm

theorem Mirrors.insert (h : Mirrors l e) (source : String) (node : Node) :
    Mirrors { l with
      entries := l.entries.insert l.next ⟨source, node.expr⟩
      next := l.next + 1 } { e with rules := (e.rules.insert source node).2 } := by
  refine ⟨h.settings, congrArg (· + 1) h.next, fun id => ?_, h.keyed.insert source node⟩
  simp only [Std.TreeMap.getElem?_insert, Std.compare_eq_iff_eq, h.next, Rulebook.get?_insert,
    h.entries]
  split <;> rfl

theorem Mirrors.replace (h : Mirrors l e) {id : RuleId} {source : String} {node : Node}
    {rule : Rule} {rules : Rulebook} (hb : e.rules.replace id source node = .ok (rule, rules)) :
    Mirrors { l with entries := l.entries.insert id ⟨source, node.expr⟩ }
      { e with rules } := by
  obtain ⟨hrule, hget⟩ := Rulebook.get?_replace hb
  refine ⟨h.settings, h.next.trans (Rulebook.next_of_replace hb).symm, fun k => ?_,
    h.keyed.replace hb⟩
  simp only [Std.TreeMap.getElem?_insert, Std.compare_eq_iff_eq, hget, h.entries, hrule]
  split <;> rfl

theorem Mirrors.remove (h : Mirrors l e) {id : RuleId} {rule : Rule} {rules : Rulebook}
    (hb : e.rules.remove id = .ok (rule, rules)) :
    Mirrors { l with entries := l.entries.erase id } { e with rules } := by
  refine ⟨h.settings, h.next.trans (Rulebook.next_of_remove hb).symm, fun k => ?_,
    h.keyed.remove hb⟩
  simp only [Std.TreeMap.getElem?_erase, Std.compare_eq_iff_eq, Rulebook.get?_remove hb, h.entries]
  split <;> rfl

end Mirrors

namespace Bookkeeping

variable (l : Ledger)

theorem run_find (id : RuleId) : (find id).run l = (match l.entries[id]? with
    | some entry => .ok entry
    | none => .error (.store (.notFound id)), l) := by
  change (match l.entries[id]? with
    | some entry => (pure entry : Bookkeeping Entry)
    | none => throw (Fault.store (.notFound id))) l = _
  cases l.entries[id]? <;> rfl

theorem run_insert (source : String) (e : Expr) : (insert source e).run l =
    (.ok (Entry.view l.next ⟨source, e⟩),
      { l with entries := l.entries.insert l.next ⟨source, e⟩, next := l.next + 1 }) := rfl

theorem run_read (text : String) :
    (read text).run l = ((Expr.parse text).mapError Fault.text, l) := rfl

theorem run_combine (rules : List Expr) (strategy : Option Strategy) :
    (combine rules strategy).run l = ((Expr.combine rules
      (strategy.getD l.settings.strategy) l.settings.deduplicate).mapError Fault.combine, l) := rfl

theorem run_evaluate (e : Expr) (record : Record) : (evaluate e record).run l =
    ((e.evaluate l.settings.ordering record).mapError Fault.evaluation, l) := rfl

theorem run_create {text : String} {e : Expr} (h : Expr.parse text = .ok e) :
    (create text).run l = (insert text e).run l := by
  rw [create, run_bind, read, h]
  rfl

theorem run_replace (id : RuleId) (source : String) (e : Expr) : (replace id source e).run l =
    match l.entries[id]? with
    | some _ => (.ok (Entry.view id ⟨source, e⟩),
        { l with entries := l.entries.insert id ⟨source, e⟩ })
    | none => (.error (.store (.notFound id)), l) := by
  rw [replace, run_bind, run_find]
  cases l.entries[id]? <;> rfl

theorem run_delete (id : RuleId) : (delete id).run l =
    match l.entries[id]? with
    | some _ => (.ok (), { l with entries := l.entries.erase id })
    | none => (.error (.store (.notFound id)), l) := by
  rw [delete, run_bind, run_find]
  cases l.entries[id]? <;> rfl

end Bookkeeping

open Remembering

/-- Whatever the memory holds, the computation gives what the action gives, and the action leaves
the ledger as it is. -/
def Reads (nodes : Set Node) (l : Ledger) (x : Remembering α) (view : α → β) (y : Bookkeeping β) :
    Prop :=
  ∀ m : Memory, m.Sound nodes → y.run l = ((x.run m).1.map view, l)

/-- Whatever the memory holds, the operation gives what the action gives, and leaves an engine that
the ledger looks like then. If it fails then the ledger is as it was. -/
def Updates (nodes : Set Node) (l : Ledger) (e : Engine) (x : Engine.Operation α) (view : α → β)
    (y : Bookkeeping β) : Prop :=
  ∀ m : Memory, m.Sound nodes → match x.run (e, m) with
    | (.ok a, e', _) => ∃ l', y.run l = (.ok (view a), l') ∧ Mirrors l' e'
    | (.error fault, e', _) => y.run l = (.error fault, l) ∧ Mirrors l e'

section Compose

variable {nodes : Set Node} {l : Ledger} {e : Engine} {x : Remembering α} {view : α → β}
  {y : Bookkeeping β} {P : α → Set Node → Prop}

/-- A computation that reads fails with the action, or both go on with what was read. -/
theorem Reads.cases (hx : Reads nodes l x view y) (hpre : Preserves Memory.Sound nodes x P)
    {m : Memory} (hm : m.Sound nodes) :
    (∃ fault m', x.run m = (.error fault, m') ∧ y.run l = (.error fault, l)) ∨
      ∃ a m' larger, x.run m = (.ok a, m') ∧ y.run l = (.ok (view a), l) ∧ nodes ⊆ larger ∧
        m'.Sound larger ∧ P a larger := by
  obtain ⟨larger, hlarger, hm', hP⟩ := hpre m hm
  have hy := hx m hm
  rcases hrun : x.run m with ⟨fault | a, m'⟩
  · rw [hrun] at hy
    exact .inl ⟨fault, m', rfl, hy⟩
  · rw [hrun] at hy hm' hP
    exact .inr ⟨a, m', larger, rfl, hy, hlarger, hm', hP a rfl⟩

theorem Reads.bind {f : α → Remembering γ} {view' : γ → δ} {g : β → Bookkeeping δ}
    (hx : Reads nodes l x view y) (hpre : Preserves Memory.Sound nodes x P)
    (hf : ∀ a larger, nodes ⊆ larger → P a larger → Reads larger l (f a) view' (g (view a))) :
    Reads nodes l (x >>= f) view' (y >>= g) := by
  intro m hm
  rw [run_bind, run_bind]
  rcases hx.cases hpre hm with ⟨fault, m', hrun, hy⟩ | ⟨a, m', larger, hrun, hy, hlarger, hm', ha⟩
  · rw [hrun, hy]
    rfl
  · rw [hrun, hy]
    exact hf a larger hlarger ha m' hm'

/-- What asks the engine goes on with an engine and a ledger that are as they were. -/
theorem Reads.updates {f : Engine → Remembering α} {g : α → Engine.Operation γ} {view' : γ → δ}
    {h : β → Bookkeeping δ} (hl : Mirrors l e) (hx : Reads nodes l (f e) view y)
    (hpre : Preserves Memory.Sound nodes (f e) P)
    (hg : ∀ a larger, nodes ⊆ larger → P a larger → Updates larger l e (g a) view' (h (view a))) :
    Updates nodes l e (Engine.ask f >>= g) view' (y >>= h) := by
  intro m hm
  rw [run_bind, run_bind, Engine.run_ask]
  rcases hx.cases hpre hm with ⟨fault, m', hrun, hy⟩ | ⟨a, m', larger, hrun, hy, hlarger, hm', ha⟩
  · rw [hrun, hy]
    exact ⟨rfl, hl⟩
  · rw [hrun, hy]
    exact hg a larger hlarger ha m' hm'

/-- What only asks the engine leaves it and the ledger alike. -/
theorem Reads.keep {f : Engine → Remembering α} (hl : Mirrors l e)
    (hx : Reads nodes l (f e) view y) {reply : α → Reply} {shown : β → Reply.View}
    (hreply : ∀ a, (reply a).view = shown (view a)) :
    Updates nodes l e (do return reply (← Engine.ask f)) Reply.view (do return shown (← y)) := by
  intro m hm
  rw [run_bind, run_bind, Engine.run_ask, hx m hm]
  rcases (f e).run m with ⟨_ | a, m'⟩
  · exact ⟨rfl, hl⟩
  · exact ⟨l, by rw [hreply]; rfl, hl⟩

theorem Updates.reply {x : Engine.Operation α} (hx : Updates nodes l e x view y)
    {reply : α → Reply} {shown : β → Reply.View} (hreply : ∀ a, (reply a).view = shown (view a)) :
    Updates nodes l e (do return reply (← x)) Reply.view (do return shown (← y)) := by
  intro m hm
  have h := hx m hm
  rw [run_bind, run_bind]
  rcases hrun : x.run (e, m) with ⟨_ | a, e', m'⟩
  · rw [hrun] at h
    obtain ⟨hy, hl⟩ := h
    rw [hy]
    exact ⟨rfl, hl⟩
  · rw [hrun] at h
    obtain ⟨l', hy, hl'⟩ := h
    rw [hy]
    exact ⟨l', by rw [hreply]; rfl, hl'⟩

end Compose

section Parts

variable {nodes : Set Node} {l : Ledger} {e : Engine} {view : α → β}

/-- A computation that does not use the memory gives what the action gives, and the action leaves
the ledger as it is. -/
def Gives (l : Ledger) (x : Except Fault α) (view : α → β) (y : Bookkeeping β) : Prop :=
  y.run l = (x.map view, l)

theorem Gives.reads {x : Except Fault α} {y : Bookkeeping β} (h : Gives l x view y)
    (nodes : Set Node) : Reads nodes l (liftM x) view y :=
  fun _ _ => h

theorem Gives.bind {x : Except Fault α} {y : Bookkeeping β} {f : α → Except Fault γ} {view' : γ → δ}
    {g : β → Bookkeeping δ} (hx : Gives l x view y) (hf : ∀ a, Gives l (f a) view' (g (view a))) :
    Gives l (x >>= f) view' (y >>= g) := by
  rw [Gives, run_bind, hx]
  cases x with
  | error fault => rfl
  | ok a => exact hf a

theorem gives_find (hl : Mirrors l e) (id : RuleId) :
    Gives l (e.find id) Rule.entry (Bookkeeping.find id) := by
  rw [Gives, Bookkeeping.run_find, hl.entries]
  simp only [Engine.find, Rulebook.find]
  cases e.rules.get? id <;> rfl

theorem gives_mapM_find (hl : Mirrors l e) (ids : List RuleId) :
    Gives l (ids.mapM e.find) (List.map Rule.entry) (ids.mapM Bookkeeping.find) := by
  induction ids with
  | nil => rfl
  | cons id ids ih =>
    rw [List.mapM_cons, List.mapM_cons]
    refine (gives_find hl id).bind fun rule => ih.bind fun rules => ?_
    rfl

theorem gives_evaluate (hl : Mirrors l e) (node : Node) (record : Record) :
    Gives l (e.evaluateNode node record) id (Bookkeeping.evaluate node.expr record) := by
  rw [Gives, Bookkeeping.run_evaluate, hl.settings, Engine.evaluateNode, node.evaluate_eq]
  cases node.expr.evaluate e.settings.ordering record <;> rfl

theorem reads_read (nodes : Set Node) (l : Ledger) (text : String) :
    Reads nodes l (Remembering.read text) Node.expr (Bookkeeping.read text) := by
  intro m hm
  rw [Bookkeeping.run_read, ← hm.map_read text]
  simp only [Remembering.read, ExceptT.run]
  rcases m.read text with ⟨_ | _, m'⟩ <;> rfl

theorem reads_lines (nodes : Set Node) (l : Ledger) (lines : List String) :
    Reads nodes l (lines.mapM Remembering.read) (List.map Node.expr)
      (lines.mapM Bookkeeping.read) := by
  induction lines generalizing nodes with
  | nil =>
    intro m hm
    rfl
  | cons line lines ih =>
    rw [List.mapM_cons, List.mapM_cons]
    refine (reads_read nodes l line).bind (preserves_read nodes line) fun node larger _ _ => ?_
    refine (ih larger).bind (Engine.preserves_lines larger lines) fun rest all _ _ => ?_
    intro m hm
    rfl

theorem reads_combineNodes (hl : Mirrors l e) {rules : List Node} (hrules : ∀ n ∈ rules, n ∈ nodes)
    (strategy : Option Strategy) : Reads nodes l (e.combineNodes rules strategy) Node.expr
      (Bookkeeping.combine (rules.map Node.expr) strategy) := by
  intro m hm
  rw [Bookkeeping.run_combine, hl.settings, ← map_expr_combine hm.arena hrules]
  simp only [Engine.combineNodes, Remembering.combine, ExceptT.run]
  cases Criteria.combine rules _ _ m.fresh <;> rfl

theorem reads_combineRules (hl : Mirrors l e) (he : e.Sound nodes) (ids : List RuleId)
    (strategy : Option Strategy) : Reads nodes l (e.combineRules ids strategy) Node.expr
      (Bookkeeping.combineRules ids strategy) := by
  have hfound : Preserves Memory.Sound nodes (liftM (ids.mapM e.find) : Remembering (List Rule))
      fun rules larger => ∀ rule ∈ rules, rule.node ∈ larger :=
    preserves_liftM fun rules hrules rule hrule => (he.of_mem hrules rule hrule).mem
  refine ((gives_mapM_find hl ids).reads nodes).bind hfound fun rules larger _ hrules => ?_
  have hentries : (rules.map Rule.entry).map Entry.expr = (rules.map Rule.node).map Node.expr := by
    simp only [List.map_map]
    rfl
  rw [hentries]
  exact reads_combineNodes hl (List.forall_mem_map.mpr hrules) strategy

theorem reads_combineLines (hl : Mirrors l e) (nodes : Set Node) (text : String)
    (strategy : Option Strategy) : Reads nodes l (e.combineLines text strategy) Node.expr
      (Bookkeeping.combineLines text strategy) :=
  (reads_lines nodes l _).bind (Engine.preserves_lines nodes _) fun _ _ _ hrules =>
    reads_combineNodes hl (fun n hn => (hrules n hn).1) strategy

theorem gives_evaluateRule (hl : Mirrors l e) (k : RuleId) (record : Record) :
    Gives l (e.evaluateRule k record) id (Bookkeeping.evaluateRule k record) :=
  (gives_find hl k).bind fun rule => gives_evaluate hl rule.node record

theorem gives_evaluateRuleJson (hl : Mirrors l e) (k : RuleId) (text : String) :
    Gives l (e.evaluateRuleJson k text) id (Bookkeeping.evaluateRuleJson k text) := by
  have hrecord : Gives l (Record.ofJsonText text) id (liftM (Record.ofJsonText text)) := by
    rw [Gives, run_liftM]
    cases Record.ofJsonText text <;> rfl
  exact hrecord.bind fun record => gives_evaluateRule hl k record

theorem reads_evaluateText (hl : Mirrors l e) (nodes : Set Node) (text : String) (record : Record) :
    Reads nodes l (e.evaluateText text record) id (Bookkeeping.evaluateText text record) :=
  (reads_read nodes l text).bind (preserves_read nodes text) fun node larger _ _ =>
    (gives_evaluate hl node record).reads larger

theorem gives_attributes (hl : Mirrors l e) (k : RuleId) :
    Gives l (e.attributes k) id (Bookkeeping.attributes k) :=
  (gives_find hl k).bind fun _ => rfl

theorem updates_insert (hl : Mirrors l e) (nodes : Set Node) (source : String) (node : Node) :
    Updates nodes l e (Engine.insert source node) Rule.view
      (Bookkeeping.insert source node.expr) := by
  intro m hm
  rw [Bookkeeping.run_insert]
  exact ⟨_, by rw [hl.next]; rfl, hl.insert source node⟩

theorem updates_replace (hl : Mirrors l e) (nodes : Set Node) (id : RuleId) (source : String)
    (node : Node) : Updates nodes l e (Engine.replace id source node) Rule.view
      (Bookkeeping.replace id source node.expr) := by
  intro m hm
  rw [Engine.run_replace, Bookkeeping.run_replace, hl.entries]
  cases hget : e.rules.get? id with
  | none =>
    rw [Rulebook.replace_of_get?_eq_none hget]
    exact ⟨rfl, hl⟩
  | some old =>
    obtain ⟨rules, hrules⟩ := Rulebook.exists_replace hget source node
    rw [hrules]
    exact ⟨_, rfl, hl.replace hrules⟩

theorem updates_delete (hl : Mirrors l e) (nodes : Set Node) (id : RuleId) :
    Updates nodes l e (Engine.delete id) (fun _ => ()) (Bookkeeping.delete id) := by
  intro m hm
  rw [Engine.run_delete, Bookkeeping.run_delete, hl.entries]
  cases hget : e.rules.get? id with
  | none =>
    rw [Rulebook.remove_of_get?_eq_none hget]
    exact ⟨rfl, hl⟩
  | some old =>
    obtain ⟨rules, hrules⟩ := Rulebook.exists_remove hget
    rw [hrules]
    exact ⟨_, rfl, hl.remove hrules⟩

theorem updates_create (hl : Mirrors l e) (nodes : Set Node) (text : String) :
    Updates nodes l e (Engine.create text) Rule.view (Bookkeeping.create text) :=
  (reads_read nodes l text).updates hl (preserves_read nodes text) fun node larger _ _ =>
    updates_insert hl larger text node

theorem updates_modify (hl : Mirrors l e) (nodes : Set Node) (id : RuleId) (text : String) :
    Updates nodes l e (Engine.modify id text) Rule.view (Bookkeeping.change id text) :=
  (reads_read nodes l text).updates hl (preserves_read nodes text) fun node larger _ _ =>
    updates_replace hl larger id text node

theorem updates_saveCombined (hl : Mirrors l e) (he : e.Sound nodes) (ids : List RuleId)
    (strategy : Option Strategy) : Updates nodes l e (Engine.saveCombined ids strategy) Rule.view
      (Bookkeeping.saveCombined ids strategy) :=
  (reads_combineRules hl he ids strategy).updates hl (he.combineRules ids strategy)
    fun node larger _ _ => updates_insert hl larger _ node

end Parts

section Serve

variable {nodes : Set Node} {l : Ledger} {e : Engine} {m : Memory}

/-- Every call is answered alike. -/
theorem updates_answer (hl : Mirrors l e) (he : e.Sound nodes) (request : Request) :
    Updates nodes l e (Engine.answer request) Reply.view (answer request) := by
  cases request with
  | create text => exact (updates_create hl nodes text).reply fun _ => rfl
  | get id =>
    intro m hm
    rw [Engine.answer, answer, run_bind, run_bind, Engine.run_ask, run_liftM, Bookkeeping.run_find,
      hl.entries, Engine.find, Rulebook.find]
    cases hget : e.rules.get? id with
    | none => exact ⟨rfl, hl⟩
    | some rule => exact ⟨l, by rw [Reply.view, ← view_entry (hl.keyed id rule hget)]; rfl, hl⟩
  | modify id text => exact (updates_modify hl nodes id text).reply fun _ => rfl
  | delete id => exact (updates_delete hl nodes id).reply fun _ => rfl
  | list =>
    intro m hm
    exact ⟨l, by rw [Reply.view, hl.list_eq]; rfl, hl⟩
  | combineRules ids strategy =>
    exact (reads_combineRules hl he ids strategy).keep hl fun _ => rfl
  | combineLines text strategy =>
    exact (reads_combineLines hl nodes text strategy).keep hl fun _ => rfl
  | saveCombined ids strategy =>
    exact (updates_saveCombined hl he ids strategy).reply fun _ => rfl
  | evaluateRule id record =>
    exact ((gives_evaluateRule hl id record).reads nodes).keep hl fun _ => rfl
  | evaluateRuleJson id text =>
    exact ((gives_evaluateRuleJson hl id text).reads nodes).keep hl fun _ => rfl
  | evaluateText text record =>
    exact (reads_evaluateText hl nodes text record).keep hl fun _ => rfl
  | evaluateNode node record =>
    exact ((gives_evaluate hl node record).reads nodes).keep hl fun _ => rfl
  | attributes id => exact ((gives_attributes hl id).reads nodes).keep hl fun _ => rfl

theorem mirrors_serve (hl : Mirrors l e) (he : e.Sound nodes) (hm : m.Sound nodes)
    (request : Request) :
    (e.serve m request).1.map Reply.view = (l.serve request).1 ∧
      Mirrors (l.serve request).2 (e.serve m request).2.1 ∧
      ∀ fault, (e.serve m request).1 = .error fault → (l.serve request).2 = l := by
  have h := updates_answer hl he request m hm
  simp only [Engine.serve, serve]
  rcases hrun : (Engine.answer request).run (e, m) with ⟨fault | reply, e', m'⟩
  · rw [hrun] at h
    obtain ⟨hy, hl'⟩ := h
    rw [hy]
    exact ⟨rfl, hl', fun _ _ => rfl⟩
  · rw [hrun] at h
    obtain ⟨l', hl', hmirrors⟩ := h
    rw [hl']
    refine ⟨rfl, hmirrors, fun fault hfault => ?_⟩
    cases hfault

end Serve

end Ledger

namespace Engine

def Event.request? : Event → Option Request
  | call request => some request
  | _ => none

/-- The engine and the memory after some events. -/
def Event.run (e : Engine) (m : Memory) (events : List Event) : Engine × Memory :=
  events.foldl (fun state event => event.next state.1 state.2) (e, m)

variable {nodes : Set Node} {e : Engine} {m : Memory} {l : Ledger}

/-- Only calls are seen in the rules. -/
theorem mirrors_next (hl : l.Mirrors e) (he : e.Sound nodes) (hm : m.Sound nodes)
    (event : Event) : Ledger.Mirrors
      (event.request?.elim l fun request => (l.serve request).2) (event.next e m).1 := by
  cases event with
  | call request => exact (Ledger.mirrors_serve hl he hm request).2.1
  | read text => exact hl
  | clear => exact hl
  | build count => exact hl

/-- After any events the ledger that was given the calls alone looks like the engine. -/
theorem mirrors_run (hl : l.Mirrors e) (he : e.Sound nodes) (hm : m.Sound nodes)
    (events : List Event) : ∃ larger,
      (Event.run e m events).2.Sound larger ∧ (Event.run e m events).1.Sound larger ∧
      Ledger.Mirrors ((events.filterMap Event.request?).foldl (fun l r => (l.serve r).2) l)
        (Event.run e m events).1 := by
  induction events generalizing nodes e m l with
  | nil => exact ⟨nodes, hm, he, hl⟩
  | cons event events ih =>
    obtain ⟨larger, hm', he'⟩ := Sound.next hm he event
    have hnext := mirrors_next hl he hm event
    have hrun : Event.run e m (event :: events) =
        Event.run (event.next e m).1 (event.next e m).2 events := rfl
    rw [List.filterMap_cons, hrun]
    have h := ih hnext he' hm'
    cases hrequest : event.request? with
    | none =>
      rw [hrequest] at h
      exact h
    | some request =>
      rw [hrequest] at h
      exact h

/-- A new engine and a ledger that was given the same calls look alike after any events. -/
theorem mirrors_after {e₀ : Engine} {m₀ : Memory} (h : Reachable e₀ m₀) (settings : Settings)
    (events : List Event) : ∃ larger,
      (Event.run (ofSettings settings) m₀ events).2.Sound larger ∧
      (Event.run (ofSettings settings) m₀ events).1.Sound larger ∧
      Ledger.Mirrors (Ledger.after settings (events.filterMap Event.request?))
        (Event.run (ofSettings settings) m₀ events).1 := by
  obtain ⟨nodes, hm₀, -⟩ := h.sound
  have hstart : (ofSettings settings).Sound nodes := by
    intro id rule hrule
    simp [ofSettings, Rulebook.get?] at hrule
  exact mirrors_run (Ledger.mirrors_start settings) hstart hm₀ events

/-- An engine does what a ledger does that reads every text anew, whatever is remembered of texts
and whatever happens to the memory between the calls. -/
theorem refines_ledger {e₀ : Engine} {m₀ : Memory} (h : Reachable e₀ m₀) (settings : Settings)
    (events : List Event) (request : Request) :
    let state := Event.run (ofSettings settings) m₀ events
    let l := Ledger.after settings (events.filterMap Event.request?)
    let served := state.1.serve state.2 request
    let answered := l.serve request
    served.1.map Reply.view = answered.1 ∧ served.2.1.list.map Rule.view = answered.2.list ∧
    served.2.1.rules.next = answered.2.next ∧
    (∀ id, (served.2.1.rules.get? id).map Rule.entry = answered.2.entries[id]?) ∧
    ∀ fault, served.1 = .error fault → answered.2 = l ∧ served.2.1 = state.1 := by
  intro state l served answered
  obtain ⟨larger, hm, he, hl⟩ := mirrors_after h settings events
  obtain ⟨hreply, hmirrors, hfault⟩ := Ledger.mirrors_serve hl he hm request
  exact ⟨hreply, hmirrors.list_eq, hmirrors.next.symm, fun id => (hmirrors.entries id).symm,
    fun fault hserved => ⟨hfault fault hserved, serve_of_error hserved⟩⟩

/-- A rule is made of a text that was read before, the texts are forgotten, and a rule that is not
there is to be deleted. -/
theorem refines_ledger_forgotten :
    let m₀ : Memory := (Memory.read {} "a = true").2
    let events : List Event := [.call (.create "a = true"), .clear]
    let state := Event.run (ofSettings {}) m₀ events
    let served := state.1.serve state.2 (.delete 7)
    served.1.map Reply.view = .error (.store (.notFound 7)) ∧
      served.2.1.list.map Rule.view =
        [⟨1, "a = true", .leaf ⟨"a", .equal, .boolean true⟩, "a = true"⟩] ∧
      served.2.1.rules.next = 2 ∧ Reachable (ofSettings {}) m₀ := by
  intro m₀ events state served
  have hreach : Reachable (ofSettings {}) m₀ := .read (.start {}) "a = true"
  obtain ⟨hreply, hlist, hnext, -, -⟩ := refines_ledger hreach {} events (.delete 7)
  have hparse : Expr.parse "a = true" = .ok (.leaf ⟨"a", .equal, .boolean true⟩) := by
    decide +kernel
  have hledger : Ledger.after {} (events.filterMap Event.request?) =
      ⟨{}, Std.TreeMap.insert {} 1 ⟨"a = true", .leaf ⟨"a", .equal, .boolean true⟩⟩, 2⟩ := by
    change (Ledger.serve { settings := {} } (.create "a = true")).2 = _
    rw [Ledger.serve, Ledger.answer, run_bind, Ledger.Bookkeeping.run_create _ hparse]
    rfl
  rw [hledger] at hreply hlist hnext
  exact ⟨hreply, hlist, hnext, hreach⟩

end Engine
end Criteria
