import Criteria.Token.Basic
import Mathlib.Data.List.Infix
import Mathlib.Tactic.Lemma

/-! How many parentheses are open in a list of tokens, counted over all its fronts, and the first
parenthesis that is opened where a given number of them are open already. -/
namespace Criteria.Token

def opened (tokens : List Token) : ℕ := tokens.countP (·.kind = .opening)

def closed (tokens : List Token) : ℕ := tokens.countP (·.kind = .closing)

/-- The largest number of parentheses that are open at once. -/
def nesting (tokens : List Token) : ℕ :=
  (tokens.inits.map fun front => opened front - closed front).foldr max 0

/-- The first parenthesis that is opened while `limit` of them are open, in a list that begins where
`level` of them are. -/
def overrun? (limit : ℕ) : ℕ → List Token → Option Token
  | _, [] => none
  | level, t :: ts =>
    match t.kind with
    | .opening => if limit ≤ level then some t else overrun? limit (level + 1) ts
    | .closing => overrun? limit (level - 1) ts
    | _ => overrun? limit level ts

@[simp] theorem opened_nil : opened [] = 0 := rfl
@[simp] theorem closed_nil : closed [] = 0 := rfl

@[simp] theorem opened_cons (t : Token) (ts : List Token) :
    opened (t :: ts) = opened ts + if t.kind = .opening then 1 else 0 := by
  simp [opened, List.countP_cons]
@[simp] theorem closed_cons (t : Token) (ts : List Token) :
    closed (t :: ts) = closed ts + if t.kind = .closing then 1 else 0 := by
  simp [closed, List.countP_cons]

@[simp] theorem opened_append (ts us : List Token) : opened (ts ++ us) = opened ts + opened us :=
  List.countP_append
@[simp] theorem closed_append (ts us : List Token) : closed (ts ++ us) = closed ts + closed us :=
  List.countP_append

theorem nesting_congr {ts us : List Token} (h : ts.map Token.kind = us.map Token.kind) :
    nesting ts = nesting us := by
  have hcounts (ts : List Token) : (ts.inits.map fun front => opened front - closed front) =
      (ts.map Token.kind).inits.map fun kinds =>
        kinds.countP (· = .opening) - kinds.countP (· = .closing) := by
    simp only [List.map_inits, List.map_map, Function.comp_def, List.countP_map, opened, closed]
  rw [nesting, hcounts, h, ← hcounts, nesting]

lemma foldr_max_le_iff (ns : List ℕ) (n : ℕ) : ns.foldr max 0 ≤ n ↔ ∀ m ∈ ns, m ≤ n := by
  induction ns with
  | nil => simp
  | cons m ns ih => simp only [List.foldr_cons, Nat.max_le, ih, List.forall_mem_cons]

theorem nesting_le_iff (tokens : List Token) (limit : ℕ) :
    nesting tokens ≤ limit ↔ ∀ front, front <+: tokens → opened front ≤ closed front + limit := by
  simp only [nesting, foldr_max_le_iff, List.mem_map, List.mem_inits, forall_exists_index, and_imp,
    forall_apply_eq_imp_iff₂, Nat.sub_le_iff_le_add']

/-- A list is nested as deep as its front, or as its end is. -/
theorem nesting_concat_le_iff (ts : List Token) (t : Token) (limit : ℕ) :
    nesting (ts ++ [t]) ≤ limit ↔
      nesting ts ≤ limit ∧ opened (ts ++ [t]) ≤ closed (ts ++ [t]) + limit := by
  simp only [nesting_le_iff, List.prefix_concat_iff]
  constructor
  · intro h
    exact ⟨fun front hf => h front (.inr hf), h _ (.inl rfl)⟩
  · rintro ⟨h, ht⟩ front (rfl | hf)
    · exact ht
    · exact h front hf

/-- Nowhere in the list have more parentheses been closed than opened, and in the end as many. -/
structure Balanced (tokens : List Token) : Prop where
  total : opened tokens = closed tokens
  front : ∀ front, front <+: tokens → closed front ≤ opened front

namespace Balanced

variable {ts us : List Token}

theorem append (hts : Balanced ts) (hus : Balanced us) : Balanced (ts ++ us) := by
  refine ⟨by simp [hts.total, hus.total], ?_⟩
  intro front hf
  obtain ⟨back, hb⟩ := hf
  rcases List.append_eq_append_iff.mp hb with ⟨rest, hr, -⟩ | ⟨rest, rfl, hr⟩
  · exact hts.front front ⟨rest, hr.symm⟩
  · have h := hus.front rest ⟨back, hr.symm⟩
    have ht := hts.total
    simp only [opened_append, closed_append]
    omega

theorem of_flat (h : ∀ t ∈ ts, t.kind ≠ .opening ∧ t.kind ≠ .closing) : Balanced ts := by
  have count : ∀ front, front <+: ts → opened front = 0 ∧ closed front = 0 := by
    intro front hf
    constructor
    · exact List.countP_eq_zero.mpr fun t ht => by simpa using (h t (hf.subset ht)).1
    · exact List.countP_eq_zero.mpr fun t ht => by simpa using (h t (hf.subset ht)).2
  constructor
  · rw [(count ts List.prefix_rfl).1, (count ts List.prefix_rfl).2]
  · intro front hf
    rw [(count front hf).2]
    exact Nat.zero_le _

theorem singleton {t : Token} (ho : t.kind ≠ .opening) (hc : t.kind ≠ .closing) : Balanced [t] :=
  .of_flat (by simp [ho, hc])

theorem parenthesised {o c : Token} (ho : o.kind = .opening) (hc : c.kind = .closing)
    (h : Balanced ts) : Balanced (o :: (ts ++ [c])) := by
  refine ⟨by simp [ho, hc, h.total], ?_⟩
  intro front hf
  cases front with
  | nil => simp
  | cons t front =>
    obtain ⟨rfl, hfront⟩ := List.cons_prefix_cons.mp hf
    rcases List.prefix_concat_iff.mp hfront with rfl | hf
    · simp [ho, hc, h.total]
    · have hfront := h.front front hf
      simp only [opened_cons, closed_cons, ho, reduceCtorEq, if_true, if_false]
      omega

end Balanced

section Depth

variable {ts us : List Token}

/-- Behind a list that leaves no parenthesis open the count begins anew. -/
theorem nesting_append (us : List Token) (h : Balanced ts) :
    nesting (ts ++ us) = max (nesting ts) (nesting us) := by
  refine eq_of_forall_ge_iff fun n => ?_
  simp only [Nat.max_le, nesting_le_iff]
  constructor
  · intro hle
    refine ⟨fun front hf => hle front (hf.trans (List.prefix_append ..)), fun front hf => ?_⟩
    have hfront := hle (ts ++ front) ((List.prefix_append_right_inj ts).mpr hf)
    simp only [opened_append, closed_append, h.total] at hfront
    omega
  · rintro ⟨hts, hus⟩ front ⟨back, hb⟩
    rcases List.append_eq_append_iff.mp hb with ⟨rest, hr, -⟩ | ⟨rest, rfl, hr⟩
    · exact hts front ⟨rest, hr.symm⟩
    · have hrest := hus rest ⟨back, hr.symm⟩
      simp only [opened_append, closed_append, h.total]
      omega

theorem nesting_of_flat (h : ∀ t ∈ ts, t.kind ≠ .opening) : nesting ts = 0 := by
  rw [← Nat.le_zero, nesting_le_iff]
  intro front hf
  have h0 : opened front = 0 :=
    List.countP_eq_zero.mpr fun t ht => by simpa using h t (hf.subset ht)
  omega

theorem nesting_cons_flat {t : Token} (ho : t.kind ≠ .opening) (hc : t.kind ≠ .closing) :
    nesting (t :: ts) = nesting ts := by
  have h := nesting_append ts (.singleton ho hc)
  have h0 : nesting [t] = 0 := nesting_of_flat (by simp [ho])
  rwa [h0, Nat.zero_max] at h

theorem nesting_parenthesised {o c : Token} (ho : o.kind = .opening) (hc : c.kind = .closing)
    (h : Balanced ts) : nesting (o :: (ts ++ [c])) = nesting ts + 1 := by
  refine eq_of_forall_ge_iff fun n => ?_
  rw [nesting_le_iff]
  constructor
  · intro hle
    have hstart := hle [o] (by simp)
    simp only [opened_cons, closed_cons, ho, opened_nil, closed_nil, reduceCtorEq, if_true,
      if_false] at hstart
    have hts : nesting ts ≤ n - 1 := by
      rw [nesting_le_iff]
      intro front hf
      have hfront := hle (o :: front) (List.cons_prefix_cons.mpr ⟨rfl, hf.trans (by simp)⟩)
      simp only [opened_cons, closed_cons, ho, reduceCtorEq, if_true, if_false] at hfront
      omega
    omega
  · intro hle front hf
    cases front with
    | nil => simp
    | cons t front =>
      obtain ⟨rfl, hfront⟩ := List.cons_prefix_cons.mp hf
      simp only [opened_cons, closed_cons, ho, reduceCtorEq, if_true, if_false]
      rcases List.prefix_concat_iff.mp hfront with rfl | hf
      · simp only [opened_append, closed_append, opened_cons, closed_cons, hc, h.total, opened_nil,
          closed_nil, reduceCtorEq, if_true, if_false]
        omega
      · have hts := (nesting_le_iff ts (nesting ts)).mp le_rfl front hf
        omega

end Depth

section Overrun

variable {limit level : ℕ} {t : Token} {ts us : List Token}

@[simp] theorem overrun?_nil : overrun? limit level [] = none := rfl

theorem overrun?_opening (h : t.kind = .opening) : overrun? limit level (t :: ts) =
    if limit ≤ level then some t else overrun? limit (level + 1) ts := by
  simp only [overrun?, h]

theorem overrun?_closing (h : t.kind = .closing) :
    overrun? limit level (t :: ts) = overrun? limit (level - 1) ts := by
  simp only [overrun?, h]

theorem overrun?_flat (ho : t.kind ≠ .opening) (hc : t.kind ≠ .closing) :
    overrun? limit level (t :: ts) = overrun? limit level ts := by
  rw [overrun?]
  split
  · contradiction
  · contradiction
  · rfl

/-- A list that closes only what is open hands over to the next one where it ends. -/
theorem overrun?_append (limit level : ℕ) (us : List Token)
    (h : ∀ front, front <+: ts → closed front ≤ level + opened front) :
    overrun? limit level (ts ++ us) =
      (overrun? limit level ts).or (overrun? limit (level + opened ts - closed ts) us) := by
  induction ts generalizing level with
  | nil => simp
  | cons t ts ih =>
    have tail : ∀ front, front <+: ts → closed (t :: front) ≤ level + opened (t :: front) :=
      fun front hf => h _ (List.cons_prefix_cons.mpr ⟨rfl, hf⟩)
    by_cases ho : t.kind = .opening
    · simp only [List.cons_append, overrun?_opening ho]
      split
      · simp
      · rw [ih _ fun front hf => by simpa [ho, Nat.add_assoc, Nat.add_comm 1] using tail front hf]
        simp only [opened_cons, closed_cons, ho, reduceCtorEq, if_true, if_false]
        congr 2
        omega
    · by_cases hc : t.kind = .closing
      · have start := tail [] List.nil_prefix
        simp only [opened_cons, closed_cons, hc, reduceCtorEq, if_true, if_false, opened_nil,
          closed_nil] at start
        have step : ∀ front, front <+: ts → closed front ≤ level - 1 + opened front := by
          intro front hf
          have h := tail front hf
          simp only [opened_cons, closed_cons, hc, reduceCtorEq, if_true, if_false] at h
          omega
        simp only [List.cons_append, overrun?_closing hc, ih _ step, opened_cons, closed_cons, hc,
          reduceCtorEq, if_true, if_false]
        congr 2
        omega
      · simp only [List.cons_append, overrun?_flat ho hc, opened_cons, closed_cons, ho, hc,
          if_false, Nat.add_zero]
        exact ih _ fun front hf => by simpa [ho, hc] using tail front hf

theorem Balanced.overrun?_append (h : Balanced ts) : overrun? limit level (ts ++ us) =
    (overrun? limit level ts).or (overrun? limit level us) := by
  rw [Token.overrun?_append limit level us fun front hf =>
    (h.front front hf).trans (Nat.le_add_left ..), h.total, Nat.add_sub_cancel]

/-- Where no parenthesis is too many, the list is nested within the limit, and otherwise the first
one follows a front that is. -/
theorem overrun?_cases (limit : ℕ) (h : ∀ front, front <+: ts → closed front ≤ opened front) :
    (overrun? limit 0 ts = none ∧ nesting ts ≤ limit) ∨
      ∃ front t back, ts = front ++ t :: back ∧ overrun? limit 0 ts = some t ∧
        t.kind = .opening ∧ opened front = closed front + limit ∧ nesting front ≤ limit := by
  induction ts using List.reverseRecOn with
  | nil => exact .inl ⟨rfl, by simp [nesting_le_iff]⟩
  | append_singleton ts t ih =>
    have hts : ∀ front, front <+: ts → closed front ≤ opened front :=
      fun front hf => h front (hf.trans (List.prefix_append ..))
    have happend : overrun? limit 0 (ts ++ [t]) =
        (overrun? limit 0 ts).or (overrun? limit (opened ts - closed ts) [t]) := by
      simpa using overrun?_append limit 0 [t] (by simpa using hts)
    rcases ih hts with ⟨hn, hd⟩ | ⟨front, u, back, rfl, hs, hu⟩
    · have hd' := (nesting_le_iff ts limit).mp hd ts List.prefix_rfl
      have hle := hts ts List.prefix_rfl
      rw [happend, hn, Option.none_or, nesting_concat_le_iff]
      by_cases ho : t.kind = .opening
      · rw [overrun?_opening ho]
        by_cases hl : limit ≤ opened ts - closed ts
        · refine .inr ⟨ts, t, [], rfl, if_pos hl, ho, by omega, hd⟩
        · refine .inl ⟨if_neg hl, hd, ?_⟩
          simp only [opened_append, closed_append, opened_cons, closed_cons, ho, opened_nil,
            closed_nil, reduceCtorEq, if_true, if_false]
          omega
      · left
        refine ⟨?_, hd, ?_⟩
        · by_cases hc : t.kind = .closing
          · rw [overrun?_closing hc, overrun?_nil]
          · rw [overrun?_flat ho hc, overrun?_nil]
        · simp only [opened_append, closed_append, opened_cons, ho, opened_nil, if_false]
          omega
    · right
      exact ⟨front, u, back ++ [t], by simp, by rw [happend, hs]; rfl, hu⟩

theorem Balanced.overrun?_eq_none_iff (h : Balanced ts) :
    overrun? limit 0 ts = none ↔ nesting ts ≤ limit := by
  rcases overrun?_cases limit h.front with ⟨hn, hd⟩ | ⟨front, t, back, rfl, hs, ho, he, -⟩
  · exact ⟨fun _ => hd, fun _ => hn⟩
  · have deep : ¬ nesting (front ++ t :: back) ≤ limit := by
      intro hd
      have hf := (nesting_le_iff _ limit).mp hd (front ++ [t]) ⟨back, by simp⟩
      simp [ho] at hf
      omega
    exact ⟨fun hn => absurd (hs.symm.trans hn) (by simp), fun hd => absurd hd deep⟩

end Overrun

end Criteria.Token
