import Criteria.Proofs.Engine.Refinement
import Criteria.Proofs.Engine.Runs
import Criteria.Proofs.Trimming

/-! Texts of several lines. To combine the lines of a text is to keep each of them as a rule and to
combine these rules, but that no rule is kept. The first line that cannot be read is what it fails
for. -/
namespace Criteria

namespace Text

/-- Lines of which some hold texts, in their order and with blanks around each. The others hold
nothing but blanks. -/
inductive Hold : List (List Char) → List String → Prop
  | nil : Hold [] []
  | blank {line : List Char} {lines : List (List Char)} {texts : List String}
      (hline : Blanks line) (h : Hold lines texts) : Hold (line :: lines) texts
  | text {before back : List Char} {s : String} {lines : List (List Char)} {texts : List String}
      (hbefore : Blanks before) (hback : Blanks back) (h : Hold lines texts) :
      Hold ((before ++ s.toList ++ back) :: lines) (s :: texts)

/-- A text that puts others on lines of their own. A line ends before a line feed, and a carriage
return in front of that is one of the blanks. -/
def OnLines (texts : List String) (text : String) : Prop :=
  ∃ lines : List (List Char), text.toList = ['\n'].intercalate lines ∧
    (∀ line ∈ lines, '\n' ∉ line) ∧ Hold lines texts

variable {texts : List String} {text : String} {lines : List (List Char)}

theorem Hold.trimmed (h : Hold lines texts) (hfilled : ∀ s ∈ texts, Filled s.toList) :
    ((lines.map trimChars).filter (!·.isEmpty)).map String.ofList = texts.map trim := by
  induction h with
  | nil => rfl
  | blank hline _ ih =>
    rw [List.map_cons, trimChars_of_blanks hline]
    exact ih hfilled
  | text hbefore hback _ ih =>
    obtain ⟨hs, hfilled⟩ := List.forall_mem_cons.mp hfilled
    rw [List.map_cons, trimChars_surrounded hbefore hback hs, List.filter_cons_of_pos
      (by simpa using hs.trimChars.ne_nil), List.map_cons, List.map_cons, ih hfilled]
    rfl

theorem OnLines.filledLines_eq (h : OnLines texts text) (hfilled : ∀ s ∈ texts, Filled s.toList) :
    filledLines text = texts.map trim := by
  obtain ⟨lines, htext, hlines, hhold⟩ := h
  rw [filledLines, htext]
  by_cases hnil : lines = []
  · subst hnil
    cases hhold
    rfl
  · rw [List.splitOn_intercalate _ hlines hnil, hhold.trimmed hfilled]

end Text

/-- A text that can be read is read as the trimmed one. -/
theorem Expr.parse_trim {text : String} {e : Expr} (hfilled : Text.Filled text.toList)
    (h : parse text = .ok e) : parse (Text.trim text) = .ok e := by
  rw [parse_eq_trim hfilled] at h
  cases htrim : parse (Text.trim text) with
  | error error => simp [htrim, Except.mapError] at h
  | ok e' => simpa [htrim, Except.mapError] using h

theorem Expr.parse_trim_error {text : String} {error : RuleTextError}
    (hfilled : Text.Filled text.toList) (h : parse text = .error error) :
    ∃ trimmed, error = trimmed.shift (Text.indent text) ∧
      parse (Text.trim text) = .error trimmed := by
  rw [parse_eq_trim hfilled] at h
  cases htrim : parse (Text.trim text) with
  | error trimmed => exact ⟨trimmed, by simpa [htrim, Except.mapError, eq_comm] using h, rfl⟩
  | ok e => simp [htrim, Except.mapError] at h

namespace Ledger

open Bookkeeping

variable (l : Ledger) (strategy : Option Strategy)

theorem run_mapM_read (lines : List String) : (lines.mapM read).run l =
    ((lines.mapM Expr.parse).mapError Fault.text, l) := by
  induction lines with
  | nil => rfl
  | cons line lines ih =>
    rw [List.mapM_cons, List.mapM_cons, run_bind, run_read]
    cases Expr.parse line with
    | error error => rfl
    | ok e =>
      simp only [Except.mapError, run_bind, ih]
      cases lines.mapM Expr.parse <;> rfl

/-- The reply to a call that combines rules. -/
def combination (settings : Settings) (strategy : Option Strategy) (rules : List Expr) :
    Except Fault Reply.View :=
  ((Expr.combine rules (strategy.getD settings.strategy) settings.deduplicate).mapError
    Fault.combine).map Reply.View.expr

theorem serve_combineLines {text : String} {rules : List Expr}
    (h : (Text.filledLines text).mapM Expr.parse = .ok rules) :
    (l.serve (.combineLines text strategy)).1 = combination l.settings strategy rules := by
  simp only [serve, answer, combineLines, run_bind, run_mapM_read, h, Except.mapError, run_combine,
    combination]
  cases Expr.combine rules (strategy.getD l.settings.strategy) l.settings.deduplicate <;> rfl

theorem serve_combineLines_error {text : String} {error : RuleTextError}
    (h : (Text.filledLines text).mapM Expr.parse = .error error) :
    (l.serve (.combineLines text strategy)).1 = .error (.text error) := by
  simp only [serve, answer, combineLines, run_bind, run_mapM_read, h, Except.mapError]

theorem serve_combineRules {ids : List RuleId} {entries : List Entry}
    (h : (ids.mapM find).run l = (.ok entries, l)) :
    (l.serve (.combineRules ids strategy)).1 =
      combination l.settings strategy (entries.map Entry.expr) := by
  simp only [serve, answer, combineRules, run_bind, h, run_combine, combination]
  cases Expr.combine (entries.map Entry.expr) (strategy.getD l.settings.strategy)
    l.settings.deduplicate <;> rfl

end Ledger

namespace Engine

/-- The texts are kept as rules one after the other, and these are the numbers that they get. -/
inductive Creates : Engine → Memory → List String → List RuleId → Engine → Memory → Prop
  | nil {e : Engine} {m : Memory} : Creates e m [] [] e m
  | cons {e e₁ e₂ : Engine} {m m₁ m₂ : Memory} {text : String} {rule : Rule} {texts : List String}
      {ids : List RuleId} (hcreate : e.serve m (.create text) = (.ok (.rule rule), e₁, m₁))
      (h : Creates e₁ m₁ texts ids e₂ m₂) : Creates e m (text :: texts) (rule.id :: ids) e₂ m₂

variable {e e' : Engine} {m m' : Memory}

theorem Reachable.of_serve (h : Reachable e m) {request : Request} {result : Except Fault Reply}
    (hserve : e.serve m request = (result, e', m')) : Reachable e' m' := by
  have hnext := h.call request
  rwa [hserve] at hnext

theorem Creates.reachable {texts : List String} {ids : List RuleId}
    (h : Creates e m texts ids e' m') (hreach : Reachable e m) : Reachable e' m' := by
  induction h with
  | nil => exact hreach
  | cons hcreate _ ih => exact ih (hreach.of_serve hcreate)

theorem Reachable.exists_mirrors (h : Reachable e m) : ∃ l, Ledger.Mirrors l e := by
  induction h with
  | start settings => exact ⟨_, Ledger.mirrors_start settings⟩
  | call h request ih =>
    obtain ⟨l, hl⟩ := ih
    obtain ⟨nodes, hm, he⟩ := h.sound
    exact ⟨_, (Ledger.mirrors_serve hl he hm request).2.1⟩
  | read _ _ ih => exact ih
  | clear _ ih => exact ih
  | build _ _ ih => exact ih

/-- A number comes back only when all others have been given out. -/
lemma add_ofNat_ne (id : RuleId) {k : ℕ} (hpos : 0 < k) (hk : k < UInt64.size) :
    id + UInt64.ofNat k ≠ id := by
  intro h
  have hnat := congrArg UInt64.toNat h
  have hid := id.toNat_lt_size
  rw [UInt64.toNat_add, UInt64.toNat_ofNat_of_lt' hk] at hnat
  unfold UInt64.size at hid hk
  omega

lemma add_one_add_ofNat (id : RuleId) (k : ℕ) :
    id + 1 + UInt64.ofNat k = id + UInt64.ofNat (k + 1) := by
  rw [UInt64.ofNat_add, UInt64.add_assoc, UInt64.add_comm 1]
  rfl

/-- Texts that can be read are kept under the numbers that follow, and found there as long as there
are numbers for all of them. -/
theorem exists_creates (h : Reachable e m) {texts : List String} {exprs : List Expr}
    (hparse : List.Forall₂ (fun text expr => Expr.parse text = .ok expr) texts exprs) :
    ∃ ids rules e' m', Creates e m texts ids e' m' ∧ e'.settings = e.settings ∧
      rules.map (fun rule => rule.node.expr) = exprs ∧
      (∀ id, (∀ k < texts.length, id ≠ e.rules.next + UInt64.ofNat k) → e'.find id = e.find id) ∧
      (texts.length ≤ UInt64.size →
        List.Forall₂ (fun id rule => e'.find id = .ok rule) ids rules) := by
  induction hparse generalizing e m with
  | nil => exact ⟨[], [], e, m, .nil, rfl, rfl, fun _ _ => rfl, fun _ => .nil⟩
  | @cons text expr texts exprs htext _ ih =>
    obtain ⟨nodes, hm, -⟩ := h.sound
    obtain ⟨node, m₁, hnode, hserve⟩ := serve_create hm htext
    obtain ⟨ids, rules, e', m', hcreates, hsettings, hrules, hothers, hfound⟩ :=
      ih (h.of_serve hserve)
    have hkeep (k : ℕ) : (e.keep text node).rules.next + UInt64.ofNat k =
        e.rules.next + UInt64.ofNat (k + 1) := add_one_add_ofNat e.rules.next k
    refine ⟨_, ⟨e.rules.next, text, node⟩ :: rules, e', m', .cons hserve hcreates, hsettings,
      by rw [List.map_cons, hrules, hnode], fun id hid => ?_, fun hlength => ?_⟩
    · have hfirst : e.rules.next ≠ id := by
        simpa [eq_comm] using hid 0 (Nat.zero_lt_succ _)
      rw [hothers id fun k hk => ?_, find_keep, if_neg hfirst]
      rw [hkeep]
      exact hid (k + 1) (Nat.succ_lt_succ hk)
    · refine .cons ?_ (hfound (Nat.le_of_succ_le hlength))
      rw [hothers _ fun k hk => ?_, find_keep, if_pos rfl]
      rw [hkeep]
      exact (add_ofNat_ne _ k.succ_pos (Nat.lt_of_lt_of_le (Nat.succ_lt_succ hk) hlength)).symm

theorem serve_combineLines_rules (e : Engine) (m : Memory) (text : String)
    (strategy : Option Strategy) : (e.serve m (.combineLines text strategy)).2.1 = e := by
  simp only [serve, answer, run_bind, run_ask]
  rcases (e.combineLines text strategy).run m with ⟨_ | node, m'⟩ <;> rfl

/-- Combining the lines of a text. If all can be read, it gives what it gives to keep each as a rule
and to combine the rules under the numbers that they get, whatever texts are remembered in the one
case or the other. Else it fails for the first that cannot be read, for the reason why this cannot
be read, at a place that does not count the blanks before it. It keeps no rule.

The bound is that of the numbers, which come back after `2 ^ 64` rules. A text that fits in memory
has fewer lines. -/
theorem combineLines_as_rules {m₁ m₂ : Memory} (h₁ : Reachable e m₁) (h₂ : Reachable e m₂)
    {texts : List String} {text : String} (hlines : Text.OnLines texts text)
    (hfilled : ∀ s ∈ texts, Text.Filled s.toList) (strategy : Option Strategy) :
    let served := e.serve m₁ (.combineLines text strategy)
    served.2.1 = e ∧
    ((∀ s ∈ texts, ∃ expr, Expr.parse s = .ok expr) → texts.length ≤ UInt64.size →
      ∃ ids e' m', Creates e m₂ texts ids e' m' ∧ served.1.map Reply.view =
        (e'.serve m' (.combineRules ids strategy)).1.map Reply.view) ∧
    ∀ front s back error, texts = front ++ s :: back →
      (∀ t ∈ front, ∃ expr, Expr.parse t = .ok expr) → Expr.parse s = .error error →
      ∃ trimmed, error = trimmed.shift (Text.indent s) ∧ served.1 = .error (.text trimmed) := by
  intro served
  obtain ⟨nodes, hm, he⟩ := h₁.sound
  obtain ⟨l, hl⟩ := h₁.exists_mirrors
  have hserved : served.1.map Reply.view = (l.serve (.combineLines text strategy)).1 :=
    (Ledger.mirrors_serve hl he hm _).1
  have htexts := hlines.filledLines_eq hfilled
  refine ⟨serve_combineLines_rules e m₁ text strategy, fun hparse hlength => ?_,
    fun front s back error hsplit hfront hs => ?_⟩
  · obtain ⟨exprs, hexprs⟩ := exists_forall₂ hparse
    obtain ⟨ids, rules, e', m', hcreates, hsettings, hrules, -, hfound⟩ := exists_creates h₂ hexprs
    have hreach := hcreates.reachable h₂
    obtain ⟨nodes', hm', he'⟩ := hreach.sound
    obtain ⟨l', hl'⟩ := hreach.exists_mirrors
    have htrimmed : (Text.filledLines text).mapM Expr.parse = .ok exprs := by
      rw [htexts]
      refine mapM_of_forall₂ (List.forall₂_map_left_iff.mpr ?_)
      exact ((List.forall₂_and_left _ _).mpr ⟨hfilled, hexprs⟩).imp
        fun s expr h => Expr.parse_trim h.1 h.2
    have hrun : (ids.mapM Ledger.Bookkeeping.find).run l' = (.ok (rules.map Rule.entry), l') := by
      have hgives := Ledger.gives_mapM_find hl' ids
      rwa [Ledger.Gives, mapM_of_forall₂ (hfound hlength)] at hgives
    have hentries : (rules.map Rule.entry).map Ledger.Entry.expr = exprs := by
      rw [List.map_map, ← hrules]
      rfl
    refine ⟨ids, e', m', hcreates, ?_⟩
    rw [hserved, (Ledger.mirrors_serve hl' he' hm' _).1, Ledger.serve_combineLines l _ htrimmed,
      Ledger.serve_combineRules l' _ hrun, hentries, hl.settings, hl'.settings, hsettings]
  · subst hsplit
    rw [List.forall_mem_append, List.forall_mem_cons] at hfilled
    obtain ⟨trimmed, herror, htrim⟩ := Expr.parse_trim_error hfilled.2.1 hs
    have hfirst : (Text.filledLines text).mapM Expr.parse = .error trimmed := by
      rw [htexts, List.map_append, List.map_cons]
      refine mapM_eq_error (List.forall_mem_map.mpr fun t ht => ?_) htrim
      obtain ⟨expr, hexpr⟩ := hfront t ht
      exact ⟨expr, Expr.parse_trim (hfilled.1 t ht) hexpr⟩
    rw [Ledger.serve_combineLines_error l strategy hfirst] at hserved
    refine ⟨trimmed, herror, ?_⟩
    cases hresult : served.1 with
    | error fault => simpa [hresult, Except.map] using hserved
    | ok reply => simp [hresult, Except.map] at hserved

/-- Two rules on lines with blank ones before and between them, while the text of one is remembered
from another engine, and three lines of which the second and the third cannot be read. -/
theorem combineLines_as_rules_blanks :
    let e := ofSettings {}
    let remembered := (Memory.read {} "b = \"x\"").2
    let broken : RuleTextError := .grammatical ⟨4, .literal, none⟩
    (∃ ids e' m', Creates e {} [" a = true", "b = \"x\""] ids e' m' ∧
      (e.serve remembered (.combineLines "\r\n a = true\t\r\n\n\u3000b = \"x\"" none)).1.map
        Reply.view = (e'.serve m' (.combineRules ids none)).1.map Reply.view) ∧
    Expr.parse "\tb = " = .error broken ∧ ∃ trimmed, broken = trimmed.shift 1 ∧
      (e.serve remembered (.combineLines "\n a = true\r\n\n \tb = \nc" none)).1 =
        .error (.text trimmed) := by
  intro e remembered broken
  have hreach : Reachable e {} := .start {}
  have hremembered : Reachable e remembered := hreach.read _
  have hfirst : Expr.parse " a = true" = .ok (.leaf ⟨"a", .equal, .boolean true⟩) := by
    decide +kernel
  have hsecond : Expr.parse "b = \"x\"" = .ok (.leaf ⟨"b", .equal, .string "x"⟩) := by
    decide +kernel
  have hbroken : Expr.parse "\tb = " = .error broken := by decide +kernel
  have hlines : Text.OnLines [" a = true", "b = \"x\""]
      "\r\n a = true\t\r\n\n\u3000b = \"x\"" := by
    refine ⟨[['\r'], [] ++ " a = true".toList ++ ['\t', '\r'], [],
      ['\u3000'] ++ "b = \"x\"".toList ++ []], by decide +kernel, by decide +kernel, ?_⟩
    exact .blank (by decide) (.text (by decide) (by decide)
      (.blank (by decide) (.text (by decide) (by decide) .nil)))
  have hbrokenlines : Text.OnLines [" a = true", "\tb = ", "c"]
      "\n a = true\r\n\n \tb = \nc" := by
    refine ⟨[[], [] ++ " a = true".toList ++ ['\r'], [], [' '] ++ "\tb = ".toList ++ [],
      [] ++ "c".toList ++ []], by decide +kernel, by decide +kernel, ?_⟩
    exact .blank (by decide) (.text (by decide) (by decide) (.blank (by decide)
      (.text (by decide) (by decide) (.text (by decide) (by decide) .nil))))
  obtain ⟨-, hsame, -⟩ := combineLines_as_rules hremembered hreach hlines (by decide +kernel) none
  obtain ⟨-, -, hfails⟩ :=
    combineLines_as_rules hremembered hreach hbrokenlines (by decide +kernel) none
  refine ⟨hsame ?_ (by decide), hbroken, hfails [" a = true"] "\tb = " ["c"] _ rfl ?_ hbroken⟩
  · simp [hfirst, hsecond]
  · simp [hfirst]

end Engine
end Criteria
