import Criteria.Proofs.Engine.Refinement
import Criteria.Proofs.Engine.Atomicity
import Criteria.Scripting

/-! Calls from a script, one after the other. Until a call has started an engine there is none.
After that each call is answered as by a new engine that was given the calls since then, whatever
was kept as a rule or remembered of texts before. -/
namespace Criteria

namespace Engine

theorem sound_ofSettings (settings : Settings) (nodes : Set Node) :
    (ofSettings settings).Sound nodes := by
  intro id rule hrule
  simp [ofSettings, Rulebook.get?] at hrule

end Engine

namespace Scripting

/-- An answer as a script sees it. -/
inductive Answer.View where
  | nothing
  | boolean (value : Bool)
  | text (text : String)
  | rule (rule : Rule.View)
  | rules (rules : List Rule.View)
  | names (names : List String)

def Answer.view : Answer → Answer.View
  | nothing => .nothing
  | boolean value => .boolean value
  | text t => .text t
  | rule r => .rule r.view
  | rules rs => .rules (rs.map Rule.view)
  | names ns => .names ns

def Answer.View.ofReply : Reply.View → Answer.View
  | .done => nothing
  | .rule r => rule r
  | .rules rs => rules rs
  | .expr e => text e.toJson.text
  | .verdict holds => boolean holds
  | .names ns => names ns

/-- What a script gets of the result of a request. -/
def Answer.ofResult (result : Except Fault Reply) : Except Failure Answer :=
  (result.mapError .fault).map ofReply

/-- What a call is for. -/
inductive Purpose where
  | start (settings : Settings)
  | ask
  | request (request : Request)

namespace Call

/-- What a call is for once its arguments are read, if they can be. -/
def purpose : Call → Except Failure Purpose
  | start settings => ((settings.map toSettings).getD (.ok {})).map .start
  | call => call.toRequest?.map fun request => request.elim .ask .request

def needsEngine : Call → Bool
  | start _ | isStarted => false
  | _ => true

/-- The settings of the engine that a call starts. -/
def settings? (call : Call) : Option Settings :=
  match call.purpose with
  | .ok (.start settings) => some settings
  | _ => none

/-- The request that a call makes of an engine. -/
def request? (call : Call) : Option Request :=
  match call.purpose with
  | .ok (.request request) => some request
  | _ => none

variable {call : Call}

lemma bind_ne {α β : Type} {x : Except Failure α} {f : α → Except Failure β} {b : β}
    (h : ∀ a, f a ≠ .ok b) : x >>= f ≠ .ok b := by
  cases x with
  | error failure => nofun
  | ok a => exact h a

/-- A call that needs an engine makes a request of it, if its arguments can be read. -/
theorem toRequest?_ne_none (h : call.needsEngine = true) : call.toRequest? ≠ .ok none := by
  cases call with
  | start | isStarted => cases h
  | list => nofun
  | create | get | delete => exact bind_ne fun _ => nofun
  | modify | evaluate => exact bind_ne fun _ => bind_ne fun _ => nofun
  | combine | saveCombined =>
    exact bind_ne fun _ => bind_ne fun _ => bind_ne fun _ => nofun

theorem purpose_cases (h : call.needsEngine = true) :
    (∃ failure, call.toRequest? = .error failure ∧ call.purpose = .error failure) ∨
      ∃ request, call.toRequest? = .ok (some request) ∧ call.purpose = .ok (.request request) := by
  have hpurpose : call.purpose =
      call.toRequest?.map fun request => request.elim .ask .request := by
    cases call with
    | start | isStarted => cases h
    | _ => rfl
  rw [hpurpose]
  rcases hrequest : call.toRequest? with failure | _ | request
  · exact .inl ⟨failure, rfl, rfl⟩
  · exact absurd hrequest (toRequest?_ne_none h)
  · exact .inr ⟨request, rfl, rfl⟩

end Call

namespace Session

/-- The session after some calls. -/
def after (calls : List Call) : Session := calls.foldl (fun s call => (s.answer call).2) {}

variable {s : Session} {call : Call}

theorem answer_isStarted (s : Session) :
    s.answer .isStarted = (.ok (.boolean s.engine.isSome), s) := rfl

theorem run_operate {α : Type} (x : Engine.Operation α) (s : Session) :
    (operate x).run s = match s.engine with
      | none => (.error .notStarted, s)
      | some e => ((x.run (e, s.memory)).1.mapError .fault,
          ⟨some (x.run (e, s.memory)).2.1, (x.run (e, s.memory)).2.2⟩) := by
  obtain ⟨_ | e, m⟩ := s <;> rfl

/-- The arguments of a call are read before the engine is asked for. -/
theorem answer_of_needsEngine (h : call.needsEngine = true) (s : Session) :
    s.answer call = (liftM call.toRequest? >>= perform : Conversation Answer).run s := by
  cases call with
  | start | isStarted => cases h
  | _ => rfl

/-- A call is answered by what it is for. -/
theorem answer_eq (s : Session) (call : Call) : s.answer call =
    match call.purpose, s.engine with
    | .error failure, _ => (.error failure, s)
    | .ok (.start settings), _ => (.ok .nothing, { s with engine := some (.ofSettings settings) })
    | .ok .ask, _ => (.ok (.boolean s.engine.isSome), s)
    | .ok (.request _), none => (.error .notStarted, s)
    | .ok (.request request), some e =>
      (Answer.ofResult (e.serve s.memory request).1,
        ⟨some (e.serve s.memory request).2.1, (e.serve s.memory request).2.2⟩) := by
  by_cases hneeds : call.needsEngine = true
  · rw [answer_of_needsEngine hneeds, run_bind, run_liftM]
    rcases Call.purpose_cases hneeds with
      ⟨failure, hrequest, hpurpose⟩ | ⟨request, hrequest, hpurpose⟩
    · rw [hrequest, hpurpose]
    · rw [hrequest, hpurpose]
      dsimp only [perform]
      rw [run_bind, run_operate]
      cases s.engine with
      | none => rfl
      | some e =>
        simp only [Engine.serve]
        rcases (Engine.answer request).run (e, s.memory) with ⟨_ | _, _⟩ <;> rfl
  · cases call with
    | start settings =>
      rw [answer, respond, Call.purpose, run_bind, run_liftM]
      cases (settings.map toSettings).getD (.ok {}) <;> rfl
    | isStarted => exact answer_isStarted s
    | _ => exact absurd rfl hneeds

theorem after_append (calls more : List Call) :
    after (calls ++ more) = more.foldl (fun s call => (s.answer call).2) (after calls) := by
  rw [after, List.foldl_append, ← after]

theorem after_concat (calls : List Call) (call : Call) :
    after (calls ++ [call]) = ((after calls).answer call).2 := after_append calls [call]

/-- The memory is sound, and so is the engine if there is one. -/
def Sound (s : Session) : Prop :=
  ∃ nodes, s.memory.Sound nodes ∧ ∀ e ∈ s.engine, e.Sound nodes

theorem Sound.answer (h : s.Sound) (call : Call) : (s.answer call).2.Sound := by
  obtain ⟨nodes, hm, he⟩ := h
  rw [answer_eq]
  split
  · exact ⟨nodes, hm, he⟩
  · exact ⟨nodes, hm, by simpa using Engine.sound_ofSettings _ nodes⟩
  · exact ⟨nodes, hm, he⟩
  · exact ⟨nodes, hm, he⟩
  · rename_i request e _ hengine
    obtain ⟨larger, hm', he'⟩ := Engine.Sound.serve hm (he e hengine) request
    exact ⟨larger, hm', by simpa using he'⟩

theorem sound_after (calls : List Call) : (after calls).Sound := by
  induction calls using List.reverseRecOn with
  | nil => exact ⟨∅, ⟨.empty 0, by simp [after]⟩, by simp [after]⟩
  | append_singleton calls call ih =>
    rw [after_concat]
    exact ih.answer call

/-- The engine of the session looks like the ledger. -/
def Mirrors (l : Ledger) (s : Session) : Prop :=
  ∃ nodes e, s.engine = some e ∧ s.memory.Sound nodes ∧ e.Sound nodes ∧ l.Mirrors e

theorem Mirrors.answer {l : Ledger} (h : Mirrors l s) (hcall : call.settings? = none) :
    Mirrors (call.request?.elim l fun request => (l.serve request).2) (s.answer call).2 := by
  have hsame := h
  obtain ⟨nodes, e, hengine, hm, he, hl⟩ := h
  rw [answer_eq, hengine]
  simp only [Call.settings?, Call.request?] at hcall ⊢
  rcases hpurpose : call.purpose with _ | _ | _ | request
  · exact hsame
  · rw [hpurpose] at hcall
    cases hcall
  · exact hsame
  · obtain ⟨larger, hm', he'⟩ := Engine.Sound.serve hm he request
    exact ⟨larger, _, rfl, hm', he', (Ledger.mirrors_serve hl he hm request).2.1⟩

theorem Mirrors.run {l : Ledger} (h : Mirrors l s) {calls : List Call}
    (hcalls : ∀ call ∈ calls, call.settings? = none) :
    Mirrors ((calls.filterMap Call.request?).foldl (fun l request => (l.serve request).2) l)
      (calls.foldl (fun s call => (s.answer call).2) s) := by
  induction calls generalizing s l with
  | nil => exact h
  | cons call calls ih =>
    obtain ⟨hcall, hcalls⟩ := List.forall_mem_cons.mp hcalls
    have hnext := ih (h.answer hcall) hcalls
    rw [List.filterMap_cons, List.foldl_cons]
    cases hrequest : call.request? with
    | none =>
      rw [hrequest] at hnext
      exact hnext
    | some request =>
      rw [hrequest] at hnext
      exact hnext

end Session
end Scripting
end Criteria
