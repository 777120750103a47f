import Criteria.Proofs.Engine.Runs

/-! What a call leaves as it was. That is the settings of the engine in any case, and all of the
engine if the call fails: in each operation the steps that can fail come before the one that changes
the rules. -/
namespace Criteria
namespace Engine

section Steps

variable {α β γ : Type} {part : Engine → γ} {x : Operation α} {f : α → Operation β}

/-- The operation leaves a part of the engine as it is, also when it fails. -/
def Spares (part : Engine → γ) (x : Operation α) : Prop := ∀ s, part (x.run s).2.1 = part s.1

theorem spares_liftM (x : Except Fault α) : Spares part (liftM x : Operation α) := fun _ => rfl

theorem spares_ask (f : Engine → Remembering α) : Spares part (ask f) := fun _ => rfl

theorem Spares.bind (hx : Spares part x) (hf : ∀ a, Spares part (f a)) :
    Spares part (x >>= f) := by
  intro s
  have hfirst := hx s
  rw [run_bind]
  rcases hrun : x.run s with ⟨_ | a, s'⟩
  · rw [hrun] at hfirst
    exact hfirst
  · rw [hrun] at hfirst
    exact (hf a s').trans hfirst

/-- The engine is as it was if the operation fails. -/
def Atomic (x : Operation α) : Prop :=
  ∀ s fault, (x.run s).1 = .error fault → (x.run s).2.1 = s.1

theorem Spares.atomic (hx : Spares id x) : Atomic x := fun s _ _ => hx s

/-- Steps that may fail can stand before an atomic operation if they leave the engine as it is. -/
theorem Spares.bind_atomic (hx : Spares id x) (hf : ∀ a, Atomic (f a)) : Atomic (x >>= f) := by
  intro s fault h
  have hfirst := hx s
  rw [run_bind] at h ⊢
  rcases hrun : x.run s with ⟨_ | a, s'⟩
  · rw [hrun] at hfirst
    exact hfirst
  · rw [hrun] at hfirst h
    exact (hf a s' fault h).trans hfirst

/-- Nothing that can fail comes after the rules are changed. -/
theorem atomic_setRules (rules : Rulebook) (a : α) :
    Atomic (do setRules rules; return a) := by
  rintro s fault ⟨⟩

theorem Atomic.reply (hx : Atomic x) (reply : α → β) : Atomic (do return reply (← x)) := by
  intro s fault h
  have hfirst := hx s
  rw [run_bind] at h ⊢
  rcases hrun : x.run s with ⟨fault' | a, s'⟩
  · rw [hrun] at hfirst
    exact hfirst fault' rfl
  · rw [hrun] at h
    cases h

end Steps

section Operations

variable (id : RuleId) (source : String) (node : Node)

theorem atomic_insert : Atomic (insert source node) :=
  (spares_ask _).bind_atomic fun _ => atomic_setRules _ _

theorem atomic_replace : Atomic (replace id source node) :=
  (spares_ask _).bind_atomic fun _ => (spares_liftM _).bind_atomic fun _ => atomic_setRules _ _

theorem atomic_delete : Atomic (delete id) :=
  (spares_ask _).bind_atomic fun _ => (spares_liftM _).bind_atomic fun _ => atomic_setRules _ _

end Operations

theorem atomic_answer (request : Request) : Atomic (answer request) := by
  have asked {α : Type} (f : Engine → Remembering α) (reply : α → Reply) :
      Atomic (do return reply (← ask f)) := (spares_ask f).atomic.reply reply
  cases request with
  | create text => exact ((spares_ask _).bind_atomic fun node => atomic_insert text node).reply _
  | modify id text =>
    exact ((spares_ask _).bind_atomic fun node => atomic_replace id text node).reply _
  | delete id => exact (atomic_delete id).reply _
  | saveCombined ids strategy =>
    exact ((spares_ask _).bind_atomic fun node => atomic_insert _ node).reply _
  | _ => exact asked _ _

/-- A call that fails leaves the engine as it is. -/
theorem serve_of_error {e : Engine} {m : Memory} {request : Request} {fault : Fault}
    (h : (e.serve m request).1 = .error fault) : (e.serve m request).2.1 = e :=
  atomic_answer request (e, m) fault h

end Engine
end Criteria
