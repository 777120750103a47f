import Criteria.Engine
import Criteria.Proofs.Combination
import Criteria.Proofs.Reading.Text

/-! What computations do to the memory. Every node that is remembered lies in one arena and is the
node of its text, and each computation only adds nodes to that arena. -/
namespace Criteria

/-- Every text that is remembered has a node of the arena, and that of the expression it spells. -/
structure Memory.Sound (nodes : Set Node) (m : Memory) : Prop where
  arena : Node.Arena nodes m.fresh
  known : ∀ text n, m.known[text]? = some n → n ∈ nodes ∧ Expr.parse text = .ok n.expr

/-- A memory that takes one more text knows that text and some of those before it. -/
theorem Memory.known_remember {m : Memory} {text t : String} {n v : Node} {fresh : ℕ}
    (h : (m.remember text n fresh).known[t]? = some v) :
    text = t ∧ n = v ∨ m.known[t]? = some v := by
  simp only [remember, Std.HashMap.getElem?_insert] at h
  split at h
  · rename_i ht
    cases h
    exact .inl ⟨beq_iff_eq.mp ht, rfl⟩
  · split at h
    · exact .inr h
    · simp at h

section Run

variable {ε σ α β : Type}

/-- A failure ends a computation, which keeps the changes it made before. -/
theorem run_bind (x : ExceptT ε (StateM σ) α) (f : α → ExceptT ε (StateM σ) β) (s : σ) :
    (x >>= f).run s = match x.run s with
      | (.ok a, s) => (f a).run s
      | (.error e, s) => (.error e, s) := by
  change (x >>= f) s = _
  simp only [bind, ExceptT.bind, ExceptT.mk, StateT.bind, ExceptT.run]
  rcases x s with ⟨_ | _, s⟩ <;> rfl

theorem run_liftM (x : Except ε α) (s : σ) :
    (liftM x : ExceptT ε (StateM σ) α).run s = (x, s) :=
  rfl

end Run

section Sequence

variable {ε α β : Type} {f : α → Except ε β}

theorem forall₂_of_mapM {as : List α} {bs : List β} (h : as.mapM f = .ok bs) :
    List.Forall₂ (fun a b => f a = .ok b) as bs := by
  induction as generalizing bs with
  | nil =>
    cases h
    exact .nil
  | cons a as ih =>
    rw [List.mapM_cons] at h
    cases ha : f a with
    | error error =>
      rw [ha] at h
      cases h
    | ok b =>
      rw [ha] at h
      cases has : as.mapM f with
      | error error =>
        rw [has] at h
        cases h
      | ok rest =>
        rw [has] at h
        cases h
        exact .cons ha (ih has)

theorem mapM_of_forall₂ {as : List α} {bs : List β}
    (h : List.Forall₂ (fun a b => f a = .ok b) as bs) : as.mapM f = .ok bs := by
  induction h with
  | nil => rfl
  | cons ha _ ih =>
    rw [List.mapM_cons, ha, ih]
    rfl

/-- The first failure is that of the whole. -/
theorem mapM_eq_error {front back : List α} {a : α} {error : ε}
    (hfront : ∀ a ∈ front, ∃ b, f a = .ok b) (h : f a = .error error) :
    (front ++ a :: back).mapM f = .error error := by
  induction front with
  | nil =>
    rw [List.nil_append, List.mapM_cons, h]
    rfl
  | cons c front ih =>
    obtain ⟨⟨b, hb⟩, hfront⟩ := List.forall_mem_cons.mp hfront
    rw [List.cons_append, List.mapM_cons, hb, ih hfront]
    rfl

theorem exists_forall₂ {as : List α} (h : ∀ a ∈ as, ∃ b, f a = .ok b) :
    ∃ bs, List.Forall₂ (fun a b => f a = .ok b) as bs := by
  induction as with
  | nil => exact ⟨[], .nil⟩
  | cons a as ih =>
    obtain ⟨⟨b, hb⟩, h⟩ := List.forall_mem_cons.mp h
    obtain ⟨bs, hbs⟩ := ih h
    exact ⟨b :: bs, .cons hb hbs⟩

end Sequence

section Preserves

variable {σ α β : Type} {S : Set Node → σ → Prop} {nodes : Set Node}
  {x : ExceptT Fault (StateM σ) α} {f : α → ExceptT Fault (StateM σ) β}
  {P : α → Set Node → Prop} {Q : β → Set Node → Prop}

/-- The computation leaves a state that is sound in a larger arena, in the sense of `S`, and any
result of it is as `P` says in that arena. -/
def Preserves (S : Set Node → σ → Prop) (nodes : Set Node) (x : ExceptT Fault (StateM σ) α)
    (P : α → Set Node → Prop) : Prop :=
  ∀ s, S nodes s → ∃ larger, nodes ⊆ larger ∧ S larger (x.run s).2 ∧
    ∀ a, (x.run s).1 = .ok a → P a larger

theorem preserves_pure {a : α} (h : P a nodes) : Preserves S nodes (pure a) P := by
  intro s hs
  refine ⟨nodes, subset_rfl, hs, fun b hb => ?_⟩
  cases hb
  exact h

theorem preserves_liftM {x : Except Fault α} (h : ∀ a, x = .ok a → P a nodes) :
    Preserves S nodes (liftM x : ExceptT Fault (StateM σ) α) P :=
  fun _ hs => ⟨nodes, subset_rfl, hs, h⟩

theorem Preserves.bind (hx : Preserves S nodes x P)
    (hf : ∀ a larger, nodes ⊆ larger → P a larger → Preserves S larger (f a) Q) :
    Preserves S nodes (x >>= f) Q := by
  intro s hs
  obtain ⟨next, hnext, hs', hP⟩ := hx s hs
  rw [run_bind]
  rcases hr : x.run s with ⟨result, s'⟩
  rw [hr] at hs' hP
  cases result with
  | error e => exact ⟨next, hnext, hs', fun b hb => nomatch hb⟩
  | ok a =>
    obtain ⟨larger, hlarger, hs'', hQ⟩ := hf a next hnext (hP a rfl) s' hs'
    exact ⟨larger, hnext.trans hlarger, hs'', hQ⟩

theorem Preserves.mono {P' : α → Set Node → Prop} (hx : Preserves S nodes x P)
    (h : ∀ a larger, nodes ⊆ larger → P a larger → P' a larger) : Preserves S nodes x P' := by
  intro s hs
  obtain ⟨larger, hlarger, hs', hP⟩ := hx s hs
  exact ⟨larger, hlarger, hs', fun a ha => h a larger hlarger (hP a ha)⟩

/-- Computations one after the other, where what holds of a result goes on to hold. -/
theorem preserves_mapM {xs : List β} {f : β → ExceptT Fault (StateM σ) α}
    (hmono : ∀ {a} {smaller larger : Set Node}, smaller ⊆ larger → P a smaller → P a larger)
    (hf : ∀ b ∈ xs, ∀ larger, nodes ⊆ larger → Preserves S larger (f b) P) :
    Preserves S nodes (xs.mapM f) fun as larger => ∀ a ∈ as, P a larger := by
  induction xs generalizing nodes with
  | nil => exact preserves_pure (by simp)
  | cons b xs ih =>
    rw [List.forall_mem_cons] at hf
    rw [List.mapM_cons]
    refine (hf.1 nodes subset_rfl).bind fun a next hnext ha => ?_
    refine (ih fun c hc larger hlarger => hf.2 c hc larger (hnext.trans hlarger)).bind ?_
    intro as larger hlarger has
    exact preserves_pure (List.forall_mem_cons.mpr ⟨hmono hlarger ha, has⟩)

end Preserves

namespace Remembering

variable {nodes : Set Node}

/-- Reading a text gives a node of the expression that the text spells. -/
theorem preserves_read (nodes : Set Node) (text : String) :
    Preserves Memory.Sound nodes (read text) fun n larger =>
      n ∈ larger ∧ Expr.parse text = .ok n.expr := by
  intro m hm
  simp only [read, ExceptT.run, Memory.read]
  cases hknown : m.known[text]? with
  | some n =>
    refine ⟨nodes, subset_rfl, hm, fun a ha => ?_⟩
    cases ha
    exact hm.known text n hknown
  | none =>
    cases hparse : Expr.parse text with
    | error e => exact ⟨nodes, subset_rfl, hm, fun a ha => nomatch ha⟩
    | ok e =>
      obtain ⟨larger, hlarger, harena, hmem⟩ := hm.arena.extends_ofExpr e
      have hexpr : Expr.parse text = .ok (Node.ofExpr e m.fresh).1.expr := by
        rw [Node.expr_ofExpr, hparse]
      refine ⟨larger, hlarger, ⟨harena, fun t v hv => ?_⟩, fun a ha => ?_⟩
      · rcases Memory.known_remember hv with ⟨rfl, rfl⟩ | hv
        · exact ⟨hmem, hexpr⟩
        · obtain ⟨hv, hparse⟩ := hm.known t v hv
          exact ⟨hlarger hv, hparse⟩
      · cases ha
        exact ⟨hmem, by rw [Node.expr_ofExpr]⟩

/-- Combining nodes of the arena. -/
theorem preserves_combine {rules : List Node} (hrules : ∀ n ∈ rules, n ∈ nodes) (s : Strategy)
    (deduplicate : Bool) :
    Preserves Memory.Sound nodes (combine rules s deduplicate) fun n larger =>
      n ∈ larger ∧ Combined rules s n.expr := by
  intro m hm
  simp only [combine, ExceptT.run]
  cases hresult : Criteria.combine rules s deduplicate m.fresh with
  | error e => exact ⟨nodes, subset_rfl, hm, fun a ha => nomatch ha⟩
  | ok result =>
    obtain ⟨⟨larger, hlarger, harena, hmem⟩, hcombined⟩ :=
      combined_of_combine hm.arena hrules hresult
    refine ⟨larger, hlarger, ⟨harena, fun text n hn => ?_⟩, fun a ha => ?_⟩
    · obtain ⟨hmem, hparse⟩ := hm.known text n hn
      exact ⟨hlarger hmem, hparse⟩
    · cases ha
      exact ⟨hmem, hcombined⟩

end Remembering

namespace Memory.Sound

variable {nodes : Set Node} {m : Memory}

theorem read (hm : m.Sound nodes) (text : String) :
    ∃ larger, nodes ⊆ larger ∧ (m.read text).2.Sound larger := by
  obtain ⟨larger, hlarger, hsound, -⟩ := Remembering.preserves_read nodes text m hm
  refine ⟨larger, hlarger, ?_⟩
  simp only [Remembering.read, ExceptT.run] at hsound
  rcases hread : m.read text with ⟨_ | _, m'⟩ <;> rw [hread] at hsound <;> exact hsound

theorem clear (hm : m.Sound nodes) : m.clear.Sound nodes :=
  ⟨hm.arena, by simp [Memory.clear]⟩

theorem build (hm : m.Sound nodes) (count : ℕ) :
    Memory.Sound nodes { m with fresh := m.fresh + count } :=
  ⟨hm.arena.mono (Nat.le_add_right ..), hm.known⟩

end Memory.Sound
end Criteria
