import Criteria.Proofs.Engine.Refinement
import Criteria.Proofs.Sharing.Transparency
import Mathlib.Data.List.Forall2

/-! Two engines whose settings differ in whether equal parts are shared. Calls of the two that
correspond have the same outcome but for the signs of zeros, which combinations may differ in and
with them the canonical texts that these are kept under. -/
namespace Criteria

/-- Both fail with one error, or both succeed with related results. -/
inductive SameOutcome {ε α β : Type} (R : α → β → Prop) : Except ε α → Except ε β → Prop
  | ok {a : α} {b : β} (h : R a b) : SameOutcome R (.ok a) (.ok b)
  | error (e : ε) : SameOutcome R (.error e) (.error e)

theorem SameOutcome.mapError {ε δ α β : Type} {R : α → β → Prop} {x : Except ε α} {y : Except ε β}
    (h : SameOutcome R x y) (f : ε → δ) : SameOutcome R (x.mapError f) (y.mapError f) := by
  cases h with
  | ok h => exact .ok h
  | error e => exact .error (f e)

theorem forall₂_of_map_eq {α β γ : Type} {R : α → β → Prop} {f : α → γ} {g : β → γ} {as : List α}
    {bs : List β} (h : as.map f = bs.map g) (hR : ∀ a ∈ as, ∀ b ∈ bs, f a = g b → R a b) :
    List.Forall₂ R as bs := by
  induction as generalizing bs with
  | nil => simp_all
  | cons a as ih =>
    obtain ⟨b, bs, rfl⟩ := List.exists_cons_of_ne_nil (l := bs) (by rintro rfl; simp at h)
    simp only [List.map_cons, List.cons.injEq, List.mem_cons, forall_eq_or_imp] at h hR
    exact .cons (hR.1.1 h.1) (ih h.2 fun a ha b hb => (hR.2 a ha).2 b hb)

namespace Expr

/-- Expressions that differ in nothing but the signs of zeros. -/
def Alike (e f : Expr) : Prop := e.unsignedZeros = f.unsignedZeros

variable {e f : Expr}

theorem alike_refl (e : Expr) : e.Alike e := rfl

theorem alike_signedBy (source : List Comparison) (e : Expr) : (e.signedBy source).Alike e :=
  unsignedZeros_signedBy source e

theorem alike_chain (o : Connective) {rest rest' : List Expr} (hfirst : e.Alike f)
    (hrest : List.Forall₂ Alike rest rest') : (chain o e rest).Alike (chain o f rest') := by
  induction hrest generalizing e f with
  | nil => exact hfirst
  | cons hnext _ ih => exact ih (congrArg₂ (join o) hfirst hnext)

/-- Whether or not equal parts are shared, combinations of rules that are alike fail alike or are
alike. -/
theorem sameOutcome_combine {rules rules' : List Expr} (h : List.Forall₂ Alike rules rules')
    (s : Strategy) (deduplicate deduplicate' : Bool) :
    SameOutcome Alike (combine rules s deduplicate) (combine rules' s deduplicate') := by
  have hshared (b : Bool) (e : Expr) : Alike (if b then e.shared else e) e := by
    cases b with
    | false => rfl
    | true => exact alike_signedBy _ e
  cases h with
  | nil => exact .error _
  | cons hfirst h =>
    cases h with
    | nil => exact .error _
    | cons hsecond hrest =>
      have hchain := alike_chain s.connective hfirst (.cons hsecond hrest)
      simp only [combine, depth_congr hchain]
      split
      · exact .error _
      · exact .ok ((hshared deduplicate _).trans (hchain.trans (hshared deduplicate' _).symm))

end Expr

/-- Rules that are the same, or that are kept under their canonical texts and are alike. -/
inductive Rule.View.Alike : Rule.View → Rule.View → Prop
  | same (r : Rule.View) : Alike r r
  | canonical (id : RuleId) {e f : Expr} (h : e.Alike f) :
      Alike ⟨id, e.text, e, e.text⟩ ⟨id, f.text, f, f.text⟩

inductive Reply.View.Alike : Reply.View → Reply.View → Prop
  | done : Alike .done .done
  | rule {r s : Rule.View} (h : r.Alike s) : Alike (.rule r) (.rule s)
  | rules {rs ss : List Rule.View} (h : List.Forall₂ Rule.View.Alike rs ss) :
      Alike (.rules rs) (.rules ss)
  | expr {e f : Expr} (h : e.Alike f) : Alike (.expr e) (.expr f)
  | verdict (holds : Bool) : Alike (.verdict holds) (.verdict holds)
  | names (names : List String) : Alike (.names names) (.names names)

/-- Calls that correspond. Where a node is handed over it may be one that the engine made. -/
inductive Request.Alike : Request → Request → Prop
  | same (request : Request) : Alike request request
  | evaluateNode {n v : Node} (h : n.expr.Alike v.expr) (record : Record) :
      Alike (.evaluateNode n record) (.evaluateNode v record)

namespace Ledger

inductive Entry.Alike : Entry → Entry → Prop
  | same (entry : Entry) : Alike entry entry
  | canonical {e f : Expr} (h : e.Alike f) : Alike ⟨e.text, e⟩ ⟨f.text, f⟩

theorem Entry.Alike.expr {a b : Entry} (h : a.Alike b) : a.expr.Alike b.expr := by
  cases h with
  | same => rfl
  | canonical h => exact h

theorem Entry.Alike.view {a b : Entry} (h : a.Alike b) (id : RuleId) :
    (a.view id).Alike (b.view id) := by
  cases h with
  | same => exact .same _
  | canonical h => exact .canonical id h

/-- The settings differ in nothing but sharing, and the entries are alike. -/
structure Alike (l k : Ledger) : Prop where
  strategy : l.settings.strategy = k.settings.strategy
  ordering : l.settings.ordering = k.settings.ordering
  next : l.next = k.next
  entries : ∀ id : RuleId, Option.Rel Entry.Alike l.entries[id]? k.entries[id]?

section Alike

variable {l k : Ledger} {a b : Entry}

theorem alike_start {s t : Settings} (hstrategy : s.strategy = t.strategy)
    (hordering : s.ordering = t.ordering) : Alike { settings := s } { settings := t } :=
  ⟨hstrategy, hordering, rfl, fun id => by simp⟩

theorem Alike.insert (h : l.Alike k) (id : RuleId) (hentry : a.Alike b) :
    Alike { l with entries := l.entries.insert id a }
      { k with entries := k.entries.insert id b } := by
  refine ⟨h.strategy, h.ordering, h.next, fun i => ?_⟩
  simp only [Std.TreeMap.getElem?_insert]
  split
  · exact .some hentry
  · exact h.entries i

theorem Alike.erase (h : l.Alike k) (id : RuleId) :
    Alike { l with entries := l.entries.erase id } { k with entries := k.entries.erase id } := by
  refine ⟨h.strategy, h.ordering, h.next, fun i => ?_⟩
  simp only [Std.TreeMap.getElem?_erase]
  split
  · exact .none
  · exact h.entries i

theorem Alike.keys_eq (h : l.Alike k) :
    l.entries.toList.map Prod.fst = k.entries.toList.map Prod.fst := by
  have hequiv : (l.entries.map fun _ _ => ()).Equiv (k.entries.map fun _ _ => ()) := by
    refine Std.TreeMap.Equiv.of_forall_constGet?_eq fun id => ?_
    rw [Std.TreeMap.getElem?_map, Std.TreeMap.getElem?_map]
    have hab := h.entries id
    generalize l.entries[id]? = a, k.entries[id]? = b at hab ⊢
    cases hab <;> rfl
  have hlist := congrArg (List.map Prod.fst) hequiv.toList_eq
  simpa only [Std.TreeMap.toList_map, List.map_map, Function.comp_def] using hlist

theorem Alike.list (h : l.Alike k) : List.Forall₂ Rule.View.Alike l.list k.list := by
  rw [Ledger.list, Ledger.list, List.forall₂_map_left_iff, List.forall₂_map_right_iff]
  refine forall₂_of_map_eq h.keys_eq fun x hx y hy hid => ?_
  obtain ⟨id, a⟩ := x
  obtain ⟨_, b⟩ := y
  cases hid
  have hab := h.entries id
  rw [Std.TreeMap.mem_toList_iff_getElem?_eq_some.mp hx,
    Std.TreeMap.mem_toList_iff_getElem?_eq_some.mp hy] at hab
  cases hab with
  | some hab => exact hab.view id

end Alike

namespace Bookkeeping

variable {α β γ δ : Type} {R : α → β → Prop} {S : γ → δ → Prop}

/-- On ledgers that are alike, two actions have the same outcome and leave ledgers that are
alike. -/
def Alike (R : α → β → Prop) (x : Bookkeeping α) (y : Bookkeeping β) : Prop :=
  ∀ l k : Ledger, l.Alike k → SameOutcome R (x.run l).1 (y.run k).1 ∧ (x.run l).2.Alike (y.run k).2

theorem alike_pure {a : α} {b : β} (h : R a b) : Alike R (pure a) (pure b) :=
  fun _ _ hl => ⟨.ok h, hl⟩

theorem Alike.bind {x : Bookkeeping α} {y : Bookkeeping β} {f : α → Bookkeeping γ}
    {g : β → Bookkeeping δ} (hx : Alike R x y) (hf : ∀ a b, R a b → Alike S (f a) (g b)) :
    Alike S (x >>= f) (y >>= g) := by
  intro l k hl
  have hrun := hx l k hl
  rw [run_bind, run_bind]
  generalize x.run l = a, y.run k = b at hrun ⊢
  obtain ⟨rx, l'⟩ := a
  obtain ⟨ry, k'⟩ := b
  obtain ⟨hout, hl'⟩ := hrun
  cases hout with
  | ok h => exact hf _ _ h l' k' hl'
  | error fault => exact ⟨.error fault, hl'⟩

/-- What two actions give is put into replies. -/
theorem Alike.reply {x : Bookkeeping α} {y : Bookkeeping β} (hx : Alike R x y) {f : α → γ}
    {g : β → δ} (h : ∀ a b, R a b → S (f a) (g b)) :
    Alike S (do return f (← x)) (do return g (← y)) :=
  hx.bind fun a b hab => alike_pure (h a b hab)

theorem alike_mapM {x : γ → Bookkeeping α} {y : γ → Bookkeeping β} (cs : List γ)
    (h : ∀ c, Alike R (x c) (y c)) : Alike (List.Forall₂ R) (cs.mapM x) (cs.mapM y) := by
  induction cs with
  | nil => exact alike_pure .nil
  | cons c cs ih =>
    rw [List.mapM_cons, List.mapM_cons]
    exact (h c).bind fun a b hab => ih.bind fun as bs habs => alike_pure (.cons hab habs)

/-- What does not look at the ledger. -/
theorem alike_liftM (x : Except Fault α) : Alike Eq (liftM x) (liftM x) := by
  intro l k hl
  rw [run_liftM, run_liftM]
  cases x with
  | error fault => exact ⟨.error fault, hl⟩
  | ok a => exact ⟨.ok rfl, hl⟩

theorem alike_find (id : RuleId) : Alike Entry.Alike (find id) (find id) := by
  intro l k hl
  rw [run_find, run_find]
  have hab := hl.entries id
  generalize l.entries[id]? = a, k.entries[id]? = b at hab ⊢
  cases hab with
  | none => exact ⟨.error _, hl⟩
  | some h => exact ⟨.ok h, hl⟩

section Entries

variable {source source' : String} {e f : Expr}

theorem alike_insert (h : Entry.Alike ⟨source, e⟩ ⟨source', f⟩) :
    Alike Rule.View.Alike (insert source e) (insert source' f) := by
  intro l k hl
  rw [run_insert, run_insert, hl.next]
  obtain ⟨hstrategy, hordering, -, hentries⟩ := hl.insert k.next h
  exact ⟨.ok (h.view k.next), hstrategy, hordering, rfl, hentries⟩

theorem alike_replace (id : RuleId) (h : Entry.Alike ⟨source, e⟩ ⟨source', f⟩) :
    Alike Rule.View.Alike (replace id source e) (replace id source' f) := by
  intro l k hl
  rw [run_replace, run_replace]
  have hab := hl.entries id
  generalize l.entries[id]? = a, k.entries[id]? = b at hab ⊢
  cases hab with
  | none => exact ⟨.error _, hl⟩
  | some _ => exact ⟨.ok (h.view id), hl.insert id h⟩

end Entries

theorem alike_delete (id : RuleId) : Alike Eq (delete id) (delete id) := by
  intro l k hl
  rw [run_delete, run_delete]
  have hab := hl.entries id
  generalize l.entries[id]? = a, k.entries[id]? = b at hab ⊢
  cases hab with
  | none => exact ⟨.error _, hl⟩
  | some _ => exact ⟨.ok rfl, hl.erase id⟩

theorem alike_create (text : String) : Alike Rule.View.Alike (create text) (create text) :=
  (alike_liftM _).bind fun e _ h => h ▸ alike_insert (.same ⟨text, e⟩)

theorem alike_change (id : RuleId) (text : String) :
    Alike Rule.View.Alike (change id text) (change id text) :=
  (alike_liftM _).bind fun e _ h => h ▸ alike_replace id (.same ⟨text, e⟩)

section Combinations

variable {rules rules' : List Expr} (strategy : Option Strategy)

theorem alike_combine (h : List.Forall₂ Expr.Alike rules rules') :
    Alike Expr.Alike (combine rules strategy) (combine rules' strategy) := by
  intro l k hl
  rw [run_combine, run_combine, hl.strategy]
  exact ⟨(Expr.sameOutcome_combine h _ _ _).mapError Fault.combine, hl⟩

theorem alike_combineRules (ids : List RuleId) :
    Alike Expr.Alike (combineRules ids strategy) (combineRules ids strategy) := by
  refine (alike_mapM ids alike_find).bind fun as bs h => alike_combine strategy ?_
  rw [List.forall₂_map_left_iff, List.forall₂_map_right_iff]
  exact h.imp fun _ _ => Entry.Alike.expr

theorem alike_combineLines (text : String) :
    Alike Expr.Alike (combineLines text strategy) (combineLines text strategy) := by
  refine (alike_mapM _ fun line => alike_liftM _).bind fun as bs h => ?_
  rw [List.forall₂_eq_eq_eq] at h
  exact h ▸ alike_combine strategy (List.forall₂_same.mpr fun e _ => e.alike_refl)

/-- A combination is kept under its canonical text in either ledger. -/
theorem alike_saveCombined (ids : List RuleId) :
    Alike Rule.View.Alike (saveCombined ids strategy) (saveCombined ids strategy) :=
  (alike_combineRules strategy ids).bind fun _ _ h => alike_insert (.canonical h)

end Combinations

section Evaluation

variable (record : Record)

theorem alike_evaluate {e f : Expr} (h : e.Alike f) :
    Alike Eq (evaluate e record) (evaluate f record) := by
  intro l k hl
  rw [run_evaluate, run_evaluate, hl.ordering, Expr.evaluate_congr h]
  cases (f.evaluate k.settings.ordering record).mapError Fault.evaluation with
  | error fault => exact ⟨.error fault, hl⟩
  | ok b => exact ⟨.ok rfl, hl⟩

theorem alike_evaluateRule (id : RuleId) :
    Alike Eq (evaluateRule id record) (evaluateRule id record) :=
  (alike_find id).bind fun _ _ h => alike_evaluate record h.expr

theorem alike_evaluateRuleJson (id : RuleId) (text : String) :
    Alike Eq (evaluateRuleJson id text) (evaluateRuleJson id text) :=
  (alike_liftM _).bind fun record _ h => h ▸ alike_evaluateRule record id

theorem alike_evaluateText (text : String) :
    Alike Eq (evaluateText text record) (evaluateText text record) :=
  (alike_liftM _).bind fun e _ h => h ▸ alike_evaluate record e.alike_refl

end Evaluation

theorem alike_attributes (id : RuleId) : Alike Eq (attributes id) (attributes id) :=
  (alike_find id).reply fun _ _ h => Expr.attributes_congr h.expr

end Bookkeeping

section Serve

open Bookkeeping

/-- Calls that correspond are answered alike. -/
theorem alike_answer {r s : Request} (h : r.Alike s) :
    Bookkeeping.Alike Reply.View.Alike (answer r) (answer s) := by
  have verdict {x y : Bookkeeping Bool} (h : Bookkeeping.Alike Eq x y) :
      Bookkeeping.Alike Reply.View.Alike (do return .verdict (← x)) (do return .verdict (← y)) :=
    h.reply fun b _ hb => hb ▸ .verdict b
  cases h with
  | evaluateNode h record => exact verdict (alike_evaluate record h)
  | same =>
    cases r with
    | create text => exact (alike_create text).reply fun _ _ => .rule
    | get id => exact (alike_find id).reply fun _ _ h => .rule (h.view id)
    | modify id text => exact (alike_change id text).reply fun _ _ => .rule
    | delete id => exact (alike_delete id).reply fun _ _ _ => .done
    | list => exact fun l k hl => ⟨.ok (.rules hl.list), hl⟩
    | combineRules ids strategy =>
      exact (alike_combineRules strategy ids).reply fun _ _ => .expr
    | combineLines text strategy =>
      exact (alike_combineLines strategy text).reply fun _ _ => .expr
    | saveCombined ids strategy =>
      exact (alike_saveCombined strategy ids).reply fun _ _ => .rule
    | evaluateRule id record => exact verdict (alike_evaluateRule record id)
    | evaluateRuleJson id text => exact verdict (alike_evaluateRuleJson id text)
    | evaluateText text record => exact verdict (alike_evaluateText record text)
    | evaluateNode node record => exact verdict (alike_evaluate record node.expr.alike_refl)
    | attributes id => exact (alike_attributes id).reply fun ns _ h => h ▸ .names ns

theorem Alike.after {l k : Ledger} (h : l.Alike k) {rs ss : List Request}
    (hrequests : List.Forall₂ Request.Alike rs ss) :
    (rs.foldl (fun l r => (l.serve r).2) l).Alike (ss.foldl (fun l r => (l.serve r).2) k) := by
  induction hrequests generalizing l k with
  | nil => exact h
  | cons hrequest _ ih => exact ih (alike_answer hrequest l k h).2

/-- The first two rules that are kept are combined under the number three. -/
theorem serve_saveCombined (settings : Settings) {e f g : Expr} (he : Expr.parse e.text = .ok e)
    (hf : Expr.parse f.text = .ok f) (strategy : Option Strategy)
    (hg : Expr.combine [e, f] (strategy.getD settings.strategy) settings.deduplicate = .ok g) :
    ((Ledger.after settings [.create e.text, .create f.text]).serve
      (.saveCombined [1, 2] strategy)).1 = .ok (.rule (Entry.view 3 ⟨g.text, g⟩)) := by
  have hafter : Ledger.after settings [.create e.text, .create f.text] =
      ⟨settings, (Std.TreeMap.insert {} 1 ⟨e.text, e⟩).insert 2 ⟨f.text, f⟩, 3⟩ := by
    change (Ledger.serve (Ledger.serve { settings } (.create e.text)).2 (.create f.text)).2 = _
    simp only [serve, answer, run_bind, run_create _ he, run_create _ hf, run_insert]
    rfl
  generalize Ledger.after settings [.create e.text, .create f.text] = l at hafter ⊢
  have hfound : (([1, 2] : List RuleId).mapM find).run l =
      (.ok [⟨e.text, e⟩, ⟨f.text, f⟩], l) := by
    rw [hafter]
    rfl
  have hcombined : (combineRules [1, 2] strategy).run l = (.ok g, l) := by
    rw [combineRules, run_bind, hfound]
    simp only [run_combine, List.map_cons, List.map_nil, hafter, hg]
    rfl
  simp only [serve, answer, saveCombined, run_bind, hcombined, run_insert]
  rw [hafter]
  rfl

end Serve

end Ledger

namespace Engine

/-- Whether combinations share their equal parts makes no difference to what calls do, but for the
signs of zeros in the combinations. Two engines may differ in this setting, have seen the same calls
with other uses of the memory between them, and start with memories that hold different texts. -/
theorem sharing_unobservable {e₁ e₂ : Engine} {m₁ m₂ : Memory} (h₁ : Reachable e₁ m₁)
    (h₂ : Reachable e₂ m₂) {s t : Settings} (hstrategy : s.strategy = t.strategy)
    (hordering : s.ordering = t.ordering) {events₁ events₂ : List Event}
    (hevents : List.Forall₂ Request.Alike (events₁.filterMap Event.request?)
      (events₂.filterMap Event.request?)) {r₁ r₂ : Request} (hrequest : r₁.Alike r₂) :
    let state₁ := Event.run (ofSettings s) m₁ events₁
    let state₂ := Event.run (ofSettings t) m₂ events₂
    let served₁ := state₁.1.serve state₁.2 r₁
    let served₂ := state₂.1.serve state₂.2 r₂
    SameOutcome Reply.View.Alike (served₁.1.map Reply.view) (served₂.1.map Reply.view) ∧
      List.Forall₂ Rule.View.Alike (served₁.2.1.list.map Rule.view)
        (served₂.2.1.list.map Rule.view) ∧
      served₁.2.1.rules.next = served₂.2.1.rules.next := by
  intro state₁ state₂ served₁ served₂
  obtain ⟨_, hm₁, he₁, hl₁⟩ := mirrors_after h₁ s events₁
  obtain ⟨_, hm₂, he₂, hl₂⟩ := mirrors_after h₂ t events₂
  obtain ⟨hreply₁, hmirrors₁, -⟩ := Ledger.mirrors_serve hl₁ he₁ hm₁ r₁
  obtain ⟨hreply₂, hmirrors₂, -⟩ := Ledger.mirrors_serve hl₂ he₂ hm₂ r₂
  have hafter := (Ledger.alike_start hstrategy hordering).after hevents
  obtain ⟨houtcome, hserved⟩ := Ledger.alike_answer hrequest _ _ hafter
  rw [hreply₁, hreply₂, hmirrors₁.list_eq, hmirrors₂.list_eq, ← hmirrors₁.next, ← hmirrors₂.next]
  exact ⟨houtcome, hserved.list, hserved.next⟩

/-- A rule with a zero and one with a negative zero, whose combination is kept. With sharing it is
another rule than without. In one of the engines the texts are forgotten in between. -/
theorem sharing_unobservable_zeros :
    let zero : Expr := .leaf ⟨"a", .less, .number ⟨0⟩⟩
    let minus : Expr := .leaf ⟨"a", .less, .number ⟨0x8000000000000000⟩⟩
    let calls : List Event := [.call (.create zero.text), .call (.create minus.text)]
    let forgetting : List Event := [.call (.create zero.text), .clear, .call (.create minus.text)]
    let request : Request := .saveCombined [1, 2] none
    let shared := Event.run (ofSettings {}) {} calls
    let plain := Event.run (ofSettings { deduplicate := false }) {} forgetting
    let kept₁ := shared.1.serve shared.2 request
    let kept₂ := plain.1.serve plain.2 request
    kept₁.1.map Reply.view = .ok (.rule (Ledger.Entry.view 3
      ⟨(Expr.join .or zero zero).text, .join .or zero zero⟩)) ∧
    kept₂.1.map Reply.view = .ok (.rule (Ledger.Entry.view 3
      ⟨(Expr.join .or zero minus).text, .join .or zero minus⟩)) ∧
    SameOutcome Reply.View.Alike (kept₁.1.map Reply.view) (kept₂.1.map Reply.view) ∧
    List.Forall₂ Rule.View.Alike (kept₁.2.1.list.map Rule.view) (kept₂.2.1.list.map Rule.view) ∧
    kept₁.2.1.rules.next = kept₂.2.1.rules.next := by
  intro zero minus calls forgetting request
  have hzero : Expr.parse zero.text = .ok zero :=
    Expr.parse_text_leaf ((Comparison.defect?_eq_none_iff _).mpr ⟨by decide, by decide⟩)
  have hminus : Expr.parse minus.text = .ok minus :=
    Expr.parse_text_leaf ((Comparison.defect?_eq_none_iff _).mpr ⟨by decide, by decide⟩)
  have hdepth : (Expr.join .or zero minus).depth ≤ Expr.maxDepth := by
    simp [zero, minus, Expr.maxDepth]
  have hshared : (Expr.join .or zero minus).shared = .join .or zero zero := by decide
  have hcombine₁ : Expr.combine [zero, minus] .any true = .ok (.join .or zero zero) :=
    (if_neg (Nat.not_lt.mpr hdepth)).trans (congrArg Except.ok hshared)
  have hcombine₂ : Expr.combine [zero, minus] .any false = .ok (.join .or zero minus) :=
    if_neg (Nat.not_lt.mpr hdepth)
  obtain ⟨_, hm₁, he₁, hl₁⟩ := mirrors_after (.start {}) {} calls
  obtain ⟨_, hm₂, he₂, hl₂⟩ := mirrors_after (.start {}) { deduplicate := false } forgetting
  have hkept₁ := Ledger.serve_saveCombined {} hzero hminus none hcombine₁
  have hkept₂ := Ledger.serve_saveCombined { deduplicate := false } hzero hminus none hcombine₂
  have hcalls : List.Forall₂ Request.Alike (calls.filterMap Event.request?)
      (forgetting.filterMap Event.request?) := List.forall₂_same.mpr fun _ _ => .same _
  have halike := sharing_unobservable (.start {}) (.start {}) (s := {})
    (t := { deduplicate := false }) rfl rfl hcalls (.same request)
  exact ⟨(Ledger.mirrors_serve hl₁ he₁ hm₁ request).1.trans hkept₁,
    (Ledger.mirrors_serve hl₂ he₂ hm₂ request).1.trans hkept₂, halike⟩

end Engine
end Criteria
