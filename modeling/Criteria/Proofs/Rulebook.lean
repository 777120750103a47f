import Criteria.Rulebook
import Mathlib.Data.List.Nodup
import Mathlib.Data.List.Range
import Mathlib.Data.Nat.Notation
import Mathlib.Tactic.Lemma
import Std.Data.TreeMap.Lemmas

/-! Histories of a collection of rules. What stands under a number is what the last call put there,
unless a later one took it out. Numbers are given out from one on, each of them once. -/
namespace Criteria.Rulebook

/-- A rule is found as it was kept, and the others as before. -/
theorem get?_insert (b : Rulebook) (source : String) (node : Node) (id : RuleId) :
    (b.insert source node).2.get? id =
      if b.next = id then some ⟨b.next, source, node⟩ else b.get? id := by
  simp only [insert, get?, Std.TreeMap.getElem?_insert, Std.compare_eq_iff_eq]

theorem get?_replace {b b' : Rulebook} {id : RuleId} {source : String} {node : Node}
    {rule : Rule} (h : b.replace id source node = .ok (rule, b')) :
    rule = ⟨id, source, node⟩ ∧
      ∀ k, b'.get? k = if id = k then some rule else b.get? k := by
  unfold replace at h
  split at h
  · cases h
    refine ⟨rfl, fun k => ?_⟩
    simp only [get?, Std.TreeMap.getElem?_insert, Std.compare_eq_iff_eq]
  · cases h

theorem get?_remove {b b' : Rulebook} {id : RuleId} {rule : Rule}
    (h : b.remove id = .ok (rule, b')) : ∀ k, b'.get? k = if id = k then none else b.get? k := by
  unfold remove at h
  split at h
  · cases h
    intro k
    simp only [get?, Std.TreeMap.getElem?_erase, Std.compare_eq_iff_eq]
  · cases h

theorem toList_eq_map (b : Rulebook) : b.toList = b.rules.toList.map Prod.snd := by
  have hvalues : b.toList = b.rules.inner.inner.toListModel.map (·.2) :=
    Std.DTreeMap.Internal.Impl.values_eq_map_snd
  have hpairs : b.rules.toList = b.rules.inner.inner.toListModel.map fun p => (p.1, p.2) :=
    Std.DTreeMap.Internal.Impl.Const.toList_eq_toListModel_map
  rw [hvalues, hpairs, List.map_map]
  rfl

theorem mem_toList_iff {b : Rulebook} {rule : Rule} :
    rule ∈ b.toList ↔ ∃ id, b.get? id = some rule := by
  simp only [toList_eq_map, List.mem_map, Prod.exists, exists_eq_right, get?,
    Std.TreeMap.mem_toList_iff_getElem?_eq_some]

variable {b b' : Rulebook} {id : RuleId} {source : String} {node : Node} {rule : Rule}

@[simp] theorem get?_empty (id : RuleId) : empty.get? id = none := by
  simp [empty, get?]

theorem size_eq_length (b : Rulebook) : b.size = b.toList.length := by
  rw [toList_eq_map, List.length_map, Std.TreeMap.length_toList, size]

theorem replace_of_get?_eq_none (h : b.get? id = none) :
    b.replace id source node = .error (.notFound id) := by
  simp only [replace, h]

theorem remove_of_get?_eq_none (h : b.get? id = none) : b.remove id = .error (.notFound id) := by
  simp only [remove, h]

theorem exists_replace (h : b.get? id = some rule) (source : String) (node : Node) :
    ∃ b', b.replace id source node = .ok (⟨id, source, node⟩, b') := by
  simp only [replace, h]
  exact ⟨_, rfl⟩

theorem exists_remove (h : b.get? id = some rule) : ∃ b', b.remove id = .ok (rule, b') := by
  simp only [remove, h]
  exact ⟨_, rfl⟩

theorem next_of_replace (h : b.replace id source node = .ok (rule, b')) : b'.next = b.next := by
  unfold replace at h
  split at h <;> cases h
  rfl

theorem next_of_remove (h : b.remove id = .ok (rule, b')) : b'.next = b.next := by
  unfold remove at h
  split at h <;> cases h
  rfl

/-- Every rule is kept under its own number. -/
def Keyed (b : Rulebook) : Prop := ∀ id rule, b.get? id = some rule → rule.id = id

namespace Keyed

theorem empty : Rulebook.empty.Keyed := by
  simp [Keyed]

theorem insert (h : b.Keyed) (source : String) (node : Node) : (b.insert source node).2.Keyed := by
  intro id rule hrule
  rw [get?_insert] at hrule
  split at hrule
  · rename_i hid
    cases hrule
    exact hid
  · exact h id rule hrule

theorem replace (h : b.Keyed) (hb : b.replace id source node = .ok (rule, b')) : b'.Keyed := by
  obtain ⟨rfl, hget⟩ := get?_replace hb
  intro k r hr
  rw [hget] at hr
  split at hr
  · rename_i hid
    cases hr
    exact hid
  · exact h k r hr

theorem remove (h : b.Keyed) (hb : b.remove id = .ok (rule, b')) : b'.Keyed := by
  intro k r hr
  rw [get?_remove hb] at hr
  split at hr
  · cases hr
  · exact h k r hr

theorem mem_toList_iff (h : b.Keyed) : rule ∈ b.toList ↔ b.get? rule.id = some rule := by
  rw [Rulebook.mem_toList_iff]
  constructor
  · rintro ⟨id, hid⟩
    rwa [h id rule hid]
  · intro hrule
    exact ⟨rule.id, hrule⟩

/-- Rules are listed by their numbers. -/
theorem pairwise_toList (h : b.Keyed) : b.toList.Pairwise fun r s => r.id < s.id := by
  have hid : ∀ entry ∈ b.rules.toList, entry.2.id = entry.1 := fun entry hentry =>
    h entry.1 entry.2 (Std.TreeMap.mem_toList_iff_getElem?_eq_some.mp hentry)
  rw [toList_eq_map, List.pairwise_map]
  refine Std.TreeMap.ordered_keys_toList.imp_of_mem fun {r s} hr hs hlt => ?_
  rw [hid r hr, hid s hs]
  exact Std.compare_eq_lt.mp hlt

end Keyed

inductive Call where
  | insert (source : String) (node : Node)
  | replace (id : RuleId) (source : String) (node : Node)
  | remove (id : RuleId)
  | get (id : RuleId)
  | list

inductive Result where
  | rule (rule : Rule)
  | found (rule? : Option Rule)
  | rules (rules : List Rule)

/-- Answers a call and goes on with the rules that it leaves. -/
def perform (b : Rulebook) : Call → Except StoreError Result × Rulebook
  | .insert source node => (.ok (.rule (b.insert source node).1), (b.insert source node).2)
  | .replace id source node =>
    match b.replace id source node with
    | .ok (rule, b') => (.ok (.rule rule), b')
    | .error e => (.error e, b)
  | .remove id =>
    match b.remove id with
    | .ok (rule, b') => (.ok (.rule rule), b')
    | .error e => (.error e, b)
  | .get id => (.ok (.found (b.get? id)), b)
  | .list => (.ok (.rules b.toList), b)

/-- The number of the rule that a call is about. A new rule is about the next one. -/
def Call.target? (b : Rulebook) : Call → Option RuleId
  | .insert _ _ => some b.next
  | .replace id _ _ | .remove id | .get id => some id
  | .list => none

/-- A call with its answer. -/
structure Event where
  call : Call
  result : Except StoreError Result

/-- The number that was given to a new rule. -/
def Event.given? : Event → Option RuleId
  | ⟨.insert _ _, .ok (.rule rule)⟩ => some rule.id
  | _ => none

/-- What a call does under a number: it puts a text and a node there, or takes them out. -/
def Event.effect? (id : RuleId) : Event → Option (Option (String × Node))
  | ⟨.insert source node, .ok (.rule rule)⟩ =>
    if rule.id = id then some (some (source, node)) else none
  | ⟨.replace k source node, .ok _⟩ => if k = id then some (some (source, node)) else none
  | ⟨.remove k, .ok _⟩ => if k = id then some none else none
  | _ => none

/-- Some call has put a text and a node under the rule's number, and none since has put others there
or taken them out. -/
def Standing (rule : Rule) (events : List Event) : Prop :=
  ∃ before event since, events = before ++ event :: since ∧
    event.effect? rule.id = some (some (rule.source, rule.node)) ∧
    ∀ later ∈ since, later.effect? rule.id = none

/-- The rules that some calls leave in a collection that was empty. -/
def after (calls : List Call) : Rulebook := calls.foldl (fun b call => (b.perform call).2) empty

/-- The calls with their answers. -/
def eventsFrom (b : Rulebook) : List Call → List Event
  | [] => []
  | call :: calls => ⟨call, (b.perform call).1⟩ :: eventsFrom (b.perform call).2 calls

def history (calls : List Call) : List Event := eventsFrom empty calls

def Call.isInsert : Call → Bool
  | .insert _ _ => true
  | _ => false

def insertions (calls : List Call) : ℕ := calls.countP Call.isInsert

section Step

variable (b : Rulebook) (call : Call)

/-- A call changes what it has an effect on, and nothing else. -/
theorem get?_perform (id : RuleId) : (b.perform call).2.get? id =
    match Event.effect? id ⟨call, (b.perform call).1⟩ with
    | some kept => kept.map fun (source, node) => ⟨id, source, node⟩
    | none => b.get? id := by
  cases call with
  | insert source node =>
    have hrule : (b.insert source node).1.id = b.next := rfl
    simp only [perform, get?_insert, Event.effect?, hrule]
    by_cases hid : b.next = id
    · simp [hid]
    · simp [hid]
  | replace k source node =>
    cases hb : b.replace k source node with
    | error e => simp only [perform, hb, Event.effect?]
    | ok result =>
      obtain ⟨hrule, hget⟩ := get?_replace hb
      simp only [perform, hb, Event.effect?, hget, hrule]
      by_cases hid : k = id
      · simp [hid]
      · simp [hid]
  | remove k =>
    cases hb : b.remove k with
    | error e => simp only [perform, hb, Event.effect?]
    | ok result =>
      simp only [perform, hb, Event.effect?, get?_remove hb]
      by_cases hid : k = id
      · simp [hid]
      · simp [hid]
  | get k => rfl
  | list => rfl

theorem Keyed.perform {b : Rulebook} (h : b.Keyed) (call : Call) : (b.perform call).2.Keyed := by
  cases call with
  | insert source node => exact h.insert source node
  | replace id source node =>
    cases hb : b.replace id source node with
    | error e => simpa only [Rulebook.perform, hb] using h
    | ok result => simpa only [Rulebook.perform, hb] using h.replace hb
  | remove id =>
    cases hb : b.remove id with
    | error e => simpa only [Rulebook.perform, hb] using h
    | ok result => simpa only [Rulebook.perform, hb] using h.remove hb
  | get id => exact h
  | list => exact h

theorem next_perform :
    (b.perform call).2.next = if call.isInsert then b.next + 1 else b.next := by
  cases call with
  | insert source node => rfl
  | replace id source node =>
    cases hb : b.replace id source node with
    | error e => simp [perform, hb, Call.isInsert]
    | ok result => simp [perform, hb, Call.isInsert, next_of_replace hb]
  | remove id =>
    cases hb : b.remove id with
    | error e => simp [perform, hb, Call.isInsert]
    | ok result => simp [perform, hb, Call.isInsert, next_of_remove hb]
  | get id => rfl
  | list => rfl

theorem given?_perform : Event.given? ⟨call, (b.perform call).1⟩ =
    if call.isInsert then some b.next else none := by
  cases call <;> rfl

/-- A call about one number leaves the rules under all others. -/
theorem get?_perform_of_target_ne {id : RuleId} (h : call.target? b ≠ some id) :
    (b.perform call).2.get? id = b.get? id := by
  cases call with
  | insert source node =>
    have hid : b.next ≠ id := by simpa [Call.target?] using h
    rw [perform, get?_insert, if_neg hid]
  | replace k source node =>
    have hid : k ≠ id := by simpa [Call.target?] using h
    cases hb : b.replace k source node with
    | error e => simp only [perform, hb]
    | ok result => simp only [perform, hb, (get?_replace hb).2, if_neg hid]
  | remove k =>
    have hid : k ≠ id := by simpa [Call.target?] using h
    cases hb : b.remove k with
    | error e => simp only [perform, hb]
    | ok result => simp only [perform, hb, get?_remove hb, if_neg hid]
  | get k => rfl
  | list => rfl

end Step

section Run

variable (calls : List Call) (call : Call)

theorem after_concat : after (calls ++ [call]) = ((after calls).perform call).2 := by
  simp only [after, List.foldl_append, List.foldl_cons, List.foldl_nil]

theorem eventsFrom_concat (b : Rulebook) : eventsFrom b (calls ++ [call]) = eventsFrom b calls ++
    [⟨call, ((calls.foldl (fun b call => (b.perform call).2) b).perform call).1⟩] := by
  induction calls generalizing b with
  | nil => rfl
  | cons first calls ih => simp only [List.cons_append, eventsFrom, ih, List.foldl_cons]

theorem history_concat : history (calls ++ [call]) =
    history calls ++ [⟨call, ((after calls).perform call).1⟩] :=
  eventsFrom_concat calls call empty

theorem insertions_concat : insertions (calls ++ [call]) =
    insertions calls + if call.isInsert then 1 else 0 := by
  simp [insertions, List.countP_append, List.countP_singleton]

theorem keyed_after : (after calls).Keyed := by
  induction calls using List.reverseRecOn with
  | nil => exact .empty
  | append_singleton calls call ih =>
    rw [after_concat]
    exact ih.perform call

/-- A rule that stands after one more call was put there by it, or stood before and was left. -/
theorem standing_concat {rule : Rule} {events : List Event} {event : Event} :
    Standing rule (events ++ [event]) ↔
      event.effect? rule.id = some (some (rule.source, rule.node)) ∨
        event.effect? rule.id = none ∧ Standing rule events := by
  constructor
  · rintro ⟨before, last, since, hsplit, hlast, hsince⟩
    cases since using List.reverseRecOn with
    | nil =>
      obtain ⟨-, heq⟩ := List.append_inj' hsplit rfl
      cases heq
      exact .inl hlast
    | append_singleton since later =>
      rw [← List.cons_append, ← List.append_assoc] at hsplit
      obtain ⟨hevents, heq⟩ := List.append_inj' hsplit rfl
      cases heq
      rw [List.forall_mem_append] at hsince
      exact .inr ⟨hsince.2 _ (by simp), before, last, since, hevents, hlast, hsince.1⟩
  · rintro (hput | ⟨hnone, before, last, since, rfl, hlast, hsince⟩)
    · exact ⟨events, event, [], rfl, hput, by simp⟩
    · refine ⟨before, last, since ++ [event], by simp, hlast, ?_⟩
      rw [List.forall_mem_append]
      exact ⟨hsince, by simpa using hnone⟩

/-- What is found under a number is what stands there by the history. -/
theorem get?_after_eq_some_iff (id : RuleId) (rule : Rule) :
    (after calls).get? id = some rule ↔ rule.id = id ∧ Standing rule (history calls) := by
  induction calls using List.reverseRecOn with
  | nil => simp [after, history, eventsFrom, Standing]
  | append_singleton calls call ih =>
    rw [after_concat, history_concat, get?_perform, standing_concat]
    obtain ⟨k, source, node⟩ := rule
    cases heffect : Event.effect? id ⟨call, ((after calls).perform call).1⟩ with
    | none =>
      simp only [ih]
      constructor
      · rintro ⟨rfl, hstands⟩
        exact ⟨rfl, .inr ⟨heffect, hstands⟩⟩
      · rintro ⟨rfl, hput | ⟨-, hstands⟩⟩
        · rw [heffect] at hput
          cases hput
        · exact ⟨rfl, hstands⟩
    | some kept =>
      constructor
      · intro hkept
        obtain ⟨pair, rfl, hrule⟩ := Option.map_eq_some_iff.mp hkept
        cases hrule
        exact ⟨rfl, .inl heffect⟩
      · rintro ⟨rfl, hput | ⟨hnone, -⟩⟩
        · rw [heffect] at hput
          cases hput
          rfl
        · rw [heffect] at hnone
          cases hnone

theorem next_after : (after calls).next = UInt64.ofNat (insertions calls + 1) := by
  induction calls using List.reverseRecOn with
  | nil => rfl
  | append_singleton calls call ih =>
    rw [after_concat, next_perform, insertions_concat, ih]
    split
    · rw [UInt64.ofNat_add (insertions calls + 1) 1]
      rfl
    · rfl

theorem toNat_next_after {calls : List Call} (h : insertions calls < UInt64.size - 1) :
    (after calls).next.toNat = insertions calls + 1 := by
  rw [next_after, UInt64.toNat_ofNat']
  exact Nat.mod_eq_of_lt (Nat.add_lt_of_lt_sub h)

/-- The numbers that the calls gave to new rules, in their order. -/
def given : List RuleId := (history calls).filterMap Event.given?

theorem map_toNat_given {calls : List Call} (h : insertions calls < UInt64.size - 1) :
    (given calls).map UInt64.toNat = List.range' 1 (insertions calls) := by
  induction calls using List.reverseRecOn with
  | nil => rfl
  | append_singleton calls call ih =>
    rw [insertions_concat] at h ⊢
    have hbefore : insertions calls < UInt64.size - 1 := by omega
    rw [given, history_concat, List.filterMap_append, List.map_append]
    change (given calls).map UInt64.toNat ++ _ = _
    rw [ih hbefore, List.filterMap_cons, given?_perform]
    cases call.isInsert with
    | true =>
      have hnext : (after calls).next.toNat = 1 + 1 * insertions calls := by
        rw [toNat_next_after hbefore]
        omega
      rw [if_pos rfl, if_pos rfl, List.range'_concat, ← hnext]
      rfl
    | false => simp

end Run

/-- What a collection that was empty holds after fewer new rules than it has numbers for. These were
numbered from one on, so no number was given twice. Under each number the rule is found that stands
there by the history, and the rules that stand are those listed, by ascending numbers. Replacing or
removing a rule that is not there is refused and changes nothing, and a call about one number leaves
the rules under all others. -/
theorem history_determines {calls : List Call} (h : insertions calls < UInt64.size - 1) :
    (given calls).map UInt64.toNat = List.range' 1 (insertions calls) ∧ (given calls).Nodup ∧
    (∀ id rule, (after calls).get? id = some rule ↔
      rule.id = id ∧ Standing rule (history calls)) ∧
    (after calls).toList.Pairwise (fun r s => r.id < s.id) ∧
    (∀ rule, rule ∈ (after calls).toList ↔ Standing rule (history calls)) ∧
    (after calls).size = (after calls).toList.length ∧
    (∀ id, (after calls).get? id = none → ∀ source node,
      (after calls).perform (.replace id source node) = (.error (.notFound id), after calls) ∧
      (after calls).perform (.remove id) = (.error (.notFound id), after calls)) ∧
    ∀ call id, call.target? (after calls) ≠ some id →
      ((after calls).perform call).2.get? id = (after calls).get? id := by
  have hgiven := map_toNat_given h
  have hkeyed := keyed_after calls
  have hget := get?_after_eq_some_iff calls
  refine ⟨hgiven, ?_, hget, hkeyed.pairwise_toList, fun rule => ?_, size_eq_length _,
    fun id hnone source node => ⟨?_, ?_⟩, fun call id => get?_perform_of_target_ne _ call⟩
  · refine List.Nodup.of_map UInt64.toNat ?_
    rw [hgiven]
    exact List.nodup_range'
  · rw [hkeyed.mem_toList_iff, hget]
    exact and_iff_right rfl
  · simp only [perform, replace_of_get?_eq_none hnone]
  · simp only [perform, remove_of_get?_eq_none hnone]

/-- A rule is replaced, another is removed, and the number of that one is not given out again. -/
theorem history_determines_removed :
    let a : Node := .leaf 0 ⟨"a", .equal, .boolean true⟩
    let b : Node := .leaf 1 ⟨"b", .equal, .boolean true⟩
    let calls : List Call := [.insert "a = true" a, .insert "b = true" b, .remove 2,
      .replace 1 "(b = true)" b, .get 2, .insert "a = TRUE" a, .list]
    insertions calls = 3 ∧ (given calls).map UInt64.toNat = [1, 2, 3] ∧
      Standing ⟨1, "(b = true)", b⟩ (history calls) ∧
      (after calls).toList = [⟨1, "(b = true)", b⟩, ⟨3, "a = TRUE", a⟩] ∧
      (after calls).size = (after calls).toList.length ∧
      (after calls).perform (.remove 2) = (.error (.notFound 2), after calls) ∧
      ((after calls).perform (.remove 3)).2.get? 1 = some ⟨1, "(b = true)", b⟩ := by
  intro a b calls
  have hcount : insertions calls = 3 := rfl
  have hbound : insertions calls < UInt64.size - 1 := by
    rw [hcount]
    decide
  obtain ⟨hgiven, -, hget, -, -, hsize, hnone, hothers⟩ := history_determines hbound
  have hfirst : (after calls).get? 1 = some ⟨1, "(b = true)", b⟩ := rfl
  have hother := hothers (.remove 3) 1 (by simp [Call.target?])
  exact ⟨hcount, hgiven, ((hget 1 _).mp hfirst).2, rfl, hsize, (hnone 2 rfl "" a).2,
    hother.trans hfirst⟩

end Criteria.Rulebook
