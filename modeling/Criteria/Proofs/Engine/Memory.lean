import Criteria.Proofs.Canonical
import Criteria.Proofs.Engine.Remembering

/-! What is remembered of texts. Reading gives what the text alone would give, no more than a fixed
number of texts is remembered, and a text that is read again has the node it had unless all texts
were forgotten in between. -/
namespace Criteria

/-- The nodes of an expression are new, and the outermost is the last of them. -/
theorem Node.ofExpr_fresh (e : Expr) (fresh : ℕ) :
    fresh ≤ (ofExpr e fresh).1.id ∧ (ofExpr e fresh).2 = (ofExpr e fresh).1.id + 1 := by
  induction e generalizing fresh with
  | leaf c => exact ⟨le_rfl, rfl⟩
  | join o l r ihl ihr =>
    obtain ⟨hl, hnextl⟩ := ihl fresh
    obtain ⟨hr, hnextr⟩ := ihr (ofExpr l fresh).2
    refine ⟨?_, rfl⟩
    simp only [ofExpr, id]
    omega
  | not e ih =>
    obtain ⟨he, hnext⟩ := ih fresh
    refine ⟨?_, rfl⟩
    simp only [ofExpr, id]
    omega

namespace Memory

variable {m : Memory} {nodes : Set Node} {text t : String} {n v : Node}

theorem read_of_known (h : m.known[text]? = some n) : m.read text = (.ok n, m) := by
  simp only [read, h]

theorem read_of_error (hnone : m.known[text]? = none) {e : RuleTextError}
    (h : Expr.parse text = .error e) : m.read text = (.error e, m) := by
  simp only [read, hnone, h]

theorem read_of_ok (hnone : m.known[text]? = none) {e : Expr} (h : Expr.parse text = .ok e) :
    m.read text = (.ok (Node.ofExpr e m.fresh).1,
      m.remember text (Node.ofExpr e m.fresh).1 (Node.ofExpr e m.fresh).2) := by
  simp only [read, hnone, h]

theorem getElem?_remember (m : Memory) (text t : String) (n : Node) (fresh : ℕ) :
    (m.remember text n fresh).known[t]? =
      if text = t then some n else if m.size < capacity then m.known[t]? else none := by
  simp only [remember, Std.HashMap.getElem?_insert, beq_iff_eq]
  by_cases hroom : m.size < capacity
  · have hsize : m.known.size < capacity := hroom
    simp only [if_pos hroom, if_pos hsize]
  · have hsize : ¬ m.known.size < capacity := hroom
    simp only [if_neg hroom, if_neg hsize, Std.HashMap.getElem?_empty]

theorem size_remember (hnew : text ∉ m.known) (n : Node) (fresh : ℕ) :
    (m.remember text n fresh).size = if m.size < capacity then m.size + 1 else 1 := by
  have hknown (m : Memory) : m.size = m.known.size := rfl
  by_cases hroom : m.size < capacity
  · have hsize : m.known.size < capacity := hroom
    rw [if_pos hroom, hknown, remember, if_pos hsize, Std.HashMap.size_insert, if_neg hnew, hknown]
  · have hsize : ¬ m.known.size < capacity := hroom
    rw [if_neg hroom, hknown, remember, if_neg hsize, Std.HashMap.size_insert,
      if_neg Std.HashMap.not_mem_empty, Std.HashMap.size_empty]

/-- A use of the memory: a text is read, or all texts are forgotten. -/
inductive Use where
  | read (text : String)
  | clear

def use (m : Memory) : Use → Memory
  | .read text => (m.read text).2
  | .clear => m.clear

/-- The memory after some uses of an empty one. -/
def after (fresh : ℕ) (uses : List Use) : Memory := uses.foldl use { fresh }

/-- The uses that forget all texts: one that says so, and reading one more text than fits. -/
def Discards (m : Memory) : Use → Prop
  | .clear => True
  | .read text => text ∉ m.known ∧ (∃ e, Expr.parse text = .ok e) ∧ capacity ≤ m.size

/-- None of the uses forgets all texts. -/
def Lasting (m : Memory) : List Use → Prop
  | [] => True
  | u :: uses => ¬ m.Discards u ∧ (m.use u).Lasting uses

theorem getElem?_eq_none_iff : m.known[text]? = none ↔ text ∉ m.known := by
  rw [Std.HashMap.mem_iff_isSome_getElem?, Option.not_isSome_iff_eq_none]

/-- What reading a text can come to: it was known, or it cannot be read, or it gets new nodes. -/
theorem read_cases (m : Memory) (text : String) :
    (∃ n, m.known[text]? = some n ∧ m.read text = (.ok n, m)) ∨
      m.known[text]? = none ∧
        ((∃ e, Expr.parse text = .error e ∧ m.read text = (.error e, m)) ∨
          ∃ e, Expr.parse text = .ok e ∧ m.read text = (.ok (Node.ofExpr e m.fresh).1,
            m.remember text (Node.ofExpr e m.fresh).1 (Node.ofExpr e m.fresh).2)) := by
  cases hknown : m.known[text]? with
  | some n => exact .inl ⟨n, rfl, read_of_known hknown⟩
  | none =>
    cases hparse : Expr.parse text with
    | error e => exact .inr ⟨rfl, .inl ⟨e, rfl, read_of_error hknown hparse⟩⟩
    | ok e => exact .inr ⟨rfl, .inr ⟨e, rfl, read_of_ok hknown hparse⟩⟩

section Bound

theorem size_use_le (h : m.size ≤ capacity) (u : Use) : (m.use u).size ≤ capacity := by
  cases u with
  | clear => simp [use, clear, size]
  | read text =>
    rcases m.read_cases text with ⟨n, -, hread⟩ | ⟨hnone, ⟨e, -, hread⟩ | ⟨e, -, hread⟩⟩
    · rwa [use, hread]
    · rwa [use, hread]
    · rw [use, hread, size_remember (getElem?_eq_none_iff.mp hnone)]
      split
      · omega
      · decide

theorem size_after_le (fresh : ℕ) (uses : List Use) : (after fresh uses).size ≤ capacity := by
  induction uses using List.reverseRecOn with
  | nil => simp [after, size]
  | append_singleton uses u ih =>
    rw [after, List.foldl_append]
    exact size_use_le ih u

end Bound

section Transparency

/-- A text gives its expression or its error, whatever is remembered. -/
theorem Sound.map_read (hm : m.Sound nodes) (text : String) :
    (m.read text).1.map Node.expr = Expr.parse text := by
  rcases m.read_cases text with ⟨n, hknown, hread⟩ | ⟨-, ⟨e, hparse, hread⟩ | ⟨e, hparse, hread⟩⟩
  · rw [hread, (hm.known text n hknown).2]
    rfl
  · rw [hread, hparse]
    rfl
  · rw [hread, hparse]
    exact congrArg Except.ok (Node.expr_ofExpr e m.fresh)

theorem Sound.exists_read (hm : m.Sound nodes) {e : Expr} (h : Expr.parse text = .ok e) :
    ∃ n, (m.read text).1 = .ok n := by
  have hread := hm.map_read text
  rw [h] at hread
  cases hn : (m.read text).1 with
  | error error => simp [hn, Except.map] at hread
  | ok n => exact ⟨n, rfl⟩

theorem Sound.use (hm : m.Sound nodes) (u : Use) : ∃ larger, (m.use u).Sound larger := by
  cases u with
  | clear => exact ⟨nodes, hm.clear⟩
  | read text =>
    obtain ⟨larger, -, hread⟩ := hm.read text
    exact ⟨larger, hread⟩

theorem sound_after (fresh : ℕ) (uses : List Use) : ∃ nodes, (after fresh uses).Sound nodes := by
  induction uses using List.reverseRecOn with
  | nil => exact ⟨∅, .empty fresh, by simp [after]⟩
  | append_singleton uses u ih =>
    obtain ⟨nodes, hm⟩ := ih
    rw [after, List.foldl_append]
    exact hm.use u

end Transparency

section Sharing

/-- A text keeps its node where texts are not all forgotten. -/
theorem getElem?_use (hknown : m.known[t]? = some n) {u : Use} (h : ¬ m.Discards u) :
    (m.use u).known[t]? = some n := by
  cases u with
  | clear => exact absurd trivial h
  | read text =>
    rcases m.read_cases text with ⟨v, -, hread⟩ | ⟨hnone, ⟨e, -, hread⟩ | ⟨e, hparse, hread⟩⟩
    · rwa [use, hread]
    · rwa [use, hread]
    · have hne : text ≠ t := by
        rintro rfl
        rw [hnone] at hknown
        cases hknown
      have hsize : m.size < capacity := by
        rw [← Nat.not_le]
        exact fun hfull => h ⟨getElem?_eq_none_iff.mp hnone, ⟨e, hparse⟩, hfull⟩
      rwa [use, hread, getElem?_remember, if_neg hne, if_pos hsize]

theorem getElem?_uses {uses : List Use} (hknown : m.known[t]? = some n) (h : m.Lasting uses) :
    (uses.foldl use m).known[t]? = some n := by
  induction uses generalizing m with
  | nil => exact hknown
  | cons u uses ih => exact ih (getElem?_use hknown h.1) h.2

theorem getElem?_use_of_discards (hknown : m.known[t]? = some n) {u : Use} (h : m.Discards u) :
    (m.use u).known[t]? = none := by
  cases u with
  | clear => simp [use, clear]
  | read text =>
    obtain ⟨hnew, ⟨e, hparse⟩, hfull⟩ := h
    have hne : text ≠ t := by
      rintro rfl
      rw [getElem?_eq_none_iff.mpr hnew] at hknown
      cases hknown
    rw [use, read_of_ok (getElem?_eq_none_iff.mpr hnew) hparse, getElem?_remember, if_neg hne,
      if_neg (Nat.not_lt.mpr hfull)]

theorem fresh_le_use (m : Memory) (u : Use) : m.fresh ≤ (m.use u).fresh := by
  cases u with
  | clear => exact le_rfl
  | read text =>
    rcases m.read_cases text with ⟨n, -, hread⟩ | ⟨-, ⟨e, -, hread⟩ | ⟨e, -, hread⟩⟩
    · rw [use, hread]
    · rw [use, hread]
    · obtain ⟨hle, hnext⟩ := Node.ofExpr_fresh e m.fresh
      simp only [use, hread, remember]
      omega

/-- A text that is known has a node no older than an identity. -/
def Renewed (t : String) (oldest : ℕ) (m : Memory) : Prop :=
  oldest ≤ m.fresh ∧ ∀ n, m.known[t]? = some n → oldest ≤ n.id

theorem Renewed.use {oldest : ℕ} (h : m.Renewed t oldest) (u : Use) :
    (m.use u).Renewed t oldest := by
  refine ⟨h.1.trans (m.fresh_le_use u), fun n hn => ?_⟩
  cases u with
  | clear => simp [Memory.use, clear] at hn
  | read text =>
    rcases m.read_cases text with ⟨v, -, hread⟩ | ⟨-, ⟨e, -, hread⟩ | ⟨e, -, hread⟩⟩
    · rw [Memory.use, hread] at hn
      exact h.2 n hn
    · rw [Memory.use, hread] at hn
      exact h.2 n hn
    · simp only [Memory.use, hread, getElem?_remember] at hn
      split at hn
      · cases hn
        exact h.1.trans (Node.ofExpr_fresh e m.fresh).1
      · split at hn
        · exact h.2 n hn
        · cases hn

theorem Renewed.uses {oldest : ℕ} (h : m.Renewed t oldest) (uses : List Use) :
    (uses.foldl Memory.use m).Renewed t oldest := by
  induction uses generalizing m with
  | nil => exact h
  | cons u uses ih => exact ih (h.use u)

theorem Renewed.le_id_read {oldest : ℕ} (h : m.Renewed t oldest) (hread : (m.read t).1 = .ok n) :
    oldest ≤ n.id := by
  rcases m.read_cases t with ⟨v, hknown, hv⟩ | ⟨-, ⟨e, -, he⟩ | ⟨e, -, he⟩⟩
  · rw [hv] at hread
    cases hread
    exact h.2 n hknown
  · rw [he] at hread
    cases hread
  · rw [he] at hread
    cases hread
    exact h.1.trans (Node.ofExpr_fresh e m.fresh).1

/-- Once all texts were forgotten, a text gets a node that did not exist before. -/
theorem renewed_uses {uses : List Use} (hm : m.Sound nodes) (hknown : m.known[t]? = some n)
    (h : ¬ m.Lasting uses) : (uses.foldl use m).Renewed t (n.id + 1) := by
  induction uses generalizing m nodes with
  | nil => exact absurd trivial h
  | cons u uses ih =>
    by_cases hu : m.Discards u
    · refine Renewed.uses ⟨?_, ?_⟩ uses
      · exact (hm.arena.below n (hm.known t n hknown).1).trans_le (m.fresh_le_use u)
      · simp [getElem?_use_of_discards hknown hu]
    · obtain ⟨larger, hsound⟩ := hm.use u
      exact ih hsound (getElem?_use hknown hu) fun hlast => h ⟨hu, hlast⟩

/-- A text that was read is known. -/
theorem getElem?_read (h : (m.read text).1 = .ok n) : (m.read text).2.known[text]? = some n := by
  rcases m.read_cases text with ⟨v, hknown, hv⟩ | ⟨-, ⟨e, -, he⟩ | ⟨e, -, he⟩⟩
  · rw [hv] at h ⊢
    cases h
    exact hknown
  · rw [he] at h
    cases h
  · rw [he] at h ⊢
    cases h
    rw [getElem?_remember, if_pos rfl]

/-- A text that is read twice has the same node both times exactly if texts were not all forgotten
in between. -/
theorem id_eq_iff_lasting {between : List Use} (hm : (m.read text).2.Sound nodes)
    (hn : (m.read text).1 = .ok n)
    (hv : ((between.foldl use (m.read text).2).read text).1 = .ok v) :
    v.id = n.id ↔ (m.read text).2.Lasting between := by
  have hknown := getElem?_read hn
  constructor
  · intro hid
    by_contra hlast
    have hle := (renewed_uses hm hknown hlast).le_id_read hv
    omega
  · intro hlast
    rw [read_of_known (getElem?_uses hknown hlast)] at hv
    cases hv
    rfl

end Sharing

/-- The memory after any uses of it. It holds no more texts than fit, each with a node of the
expression that the text spells. Reading a text gives its expression or its error. That changes
nothing if the text cannot be read or is known, and otherwise adds the text alone, to all that was
there or, where no more fits, to nothing. A text that is read again has the same node exactly if
texts were not all forgotten in between. -/
theorem remembers_faithfully (fresh : ℕ) (uses : List Use) :
    let m := after fresh uses
    m.size ≤ capacity ∧
    (∀ text n, m.known[text]? = some n → Expr.parse text = .ok n.expr) ∧
    ∀ text, (m.read text).1.map Node.expr = Expr.parse text ∧
      (∀ e, (m.read text).1 = .error e → (m.read text).2 = m) ∧
      (text ∈ m.known → (m.read text).2 = m) ∧
      (∀ n, text ∉ m.known → (m.read text).1 = .ok n →
        (m.size < capacity → (m.read text).2.size = m.size + 1 ∧
          ∀ t, (m.read text).2.known[t]? = if text = t then some n else m.known[t]?) ∧
        (capacity ≤ m.size → (m.read text).2.size = 1 ∧
          ∀ t, (m.read text).2.known[t]? = if text = t then some n else none)) ∧
      ∀ n between v, (m.read text).1 = .ok n →
        ((between.foldl use (m.read text).2).read text).1 = .ok v →
        (v.id = n.id ↔ (m.read text).2.Lasting between) := by
  intro m
  obtain ⟨nodes, hm⟩ : ∃ nodes, m.Sound nodes := sound_after fresh uses
  refine ⟨size_after_le fresh uses, fun text n hn => (hm.known text n hn).2, fun text => ?_⟩
  obtain ⟨larger, hread⟩ := hm.use (.read text)
  refine ⟨hm.map_read text, fun e he => ?_, fun hmem => ?_, fun n hnew hn => ?_,
    fun n between v => id_eq_iff_lasting hread⟩
  · rcases m.read_cases text with ⟨n, -, hr⟩ | ⟨-, ⟨e', -, hr⟩ | ⟨e', -, hr⟩⟩
    · rw [hr]
    · rw [hr]
    · rw [hr] at he
      cases he
  · obtain ⟨n, hn⟩ := Option.isSome_iff_exists.mp (Std.HashMap.mem_iff_isSome_getElem?.mp hmem)
    rw [read_of_known hn]
  · rcases m.read_cases text with ⟨v, hv, -⟩ | ⟨-, ⟨e, -, hr⟩ | ⟨e, -, hr⟩⟩
    · rw [getElem?_eq_none_iff.mpr hnew] at hv
      cases hv
    · rw [hr] at hn
      cases hn
    · rw [hr] at hn ⊢
      cases hn
      simp only [size_remember hnew, getElem?_remember]
      refine ⟨fun hroom => ?_, fun hfull => ?_⟩
      · simp only [if_pos hroom, implies_true, and_self]
      · simp only [if_neg (Nat.not_lt.mpr hfull), implies_true, and_self]

/-- Texts of which no two are the same: comparisons with strings of all lengths. -/
def filling (length : ℕ) : String :=
  (Expr.leaf ⟨"a", .equal, .string (String.ofList (List.replicate length 'x'))⟩).text

theorem parse_filling (length : ℕ) : Expr.parse (filling length) =
    .ok (.leaf ⟨"a", .equal, .string (String.ofList (List.replicate length 'x'))⟩) := by
  have hname : Text.isName "a" = true := by decide
  exact Expr.parse_text_leaf ((Comparison.defect?_eq_none_iff _).mpr ⟨hname, rfl⟩)

theorem filling_injective {i j : ℕ} (h : filling i = filling j) : i = j := by
  have hparse := parse_filling i
  rw [h, parse_filling j, Except.ok.injEq, Expr.leaf.injEq, Comparison.mk.injEq,
    Scalar.string.injEq] at hparse
  have hlength := congrArg String.length hparse.2.2
  simpa using hlength.symm

/-- Reading so many of these texts. -/
def fillings (count : ℕ) : List Use := (List.range count).map fun i => .read (filling i)

theorem after_fillings_succ (count : ℕ) : after 0 (fillings (count + 1)) =
    ((after 0 (fillings count)).read (filling count)).2 := by
  rw [fillings, List.range_succ, List.map_append, after, List.foldl_append]
  rfl

/-- As many of these texts as fit are all remembered. -/
theorem known_fillings {count : ℕ} (h : count ≤ capacity) :
    (after 0 (fillings count)).size = count ∧
      ∀ i, filling i ∈ (after 0 (fillings count)).known ↔ i < count := by
  induction count with
  | zero => simp [fillings, after, size]
  | succ count ih =>
    obtain ⟨hsize, hmem⟩ := ih (by omega)
    have hnew : filling count ∉ (after 0 (fillings count)).known := by simp [hmem]
    have hroom : (after 0 (fillings count)).size < capacity := by omega
    rw [after_fillings_succ, read_of_ok (getElem?_eq_none_iff.mpr hnew) (parse_filling count),
      size_remember hnew, if_pos hroom, hsize]
    refine ⟨rfl, fun i => ?_⟩
    rw [Std.HashMap.mem_iff_isSome_getElem?, getElem?_remember, if_pos hroom]
    by_cases hi : filling count = filling i
    · rw [if_pos hi, ← filling_injective hi]
      simp
    · have hne : i ≠ count := by
        rintro rfl
        exact hi rfl
      rw [if_neg hi, ← Std.HashMap.mem_iff_isSome_getElem?, hmem]
      omega

theorem exists_full : ∃ uses, (after 0 uses).size = capacity ∧
    filling 7 ∈ (after 0 uses).known ∧ filling capacity ∉ (after 0 uses).known := by
  obtain ⟨hsize, hmem⟩ := known_fillings (Nat.le_refl capacity)
  refine ⟨fillings capacity, hsize, (hmem 7).mpr (by decide), fun hlast => ?_⟩
  exact absurd ((hmem capacity).mp hlast) (Nat.lt_irrefl _)

/-- A memory that has room takes one more text. In one that is full a text without a meaning changes
nothing, and neither does a text that is known, which keeps its node. One more text is remembered
alone there, so that the known one gets another node when it is read again. -/
theorem remembers_faithfully_full :
    ((after 0 (fillings 7)).read (filling 7)).2.size = 8 ∧
    ∃ uses, (after 0 uses).size = capacity ∧
      ((after 0 uses).read "a =").2 = after 0 uses ∧
      ((after 0 uses).read (filling 7)).2 = after 0 uses ∧
      ((after 0 uses).read (filling capacity)).2.size = 1 ∧
      ∃ first again other, ((after 0 uses).read (filling 7)).1 = .ok first ∧
        (([].foldl use ((after 0 uses).read (filling 7)).2).read (filling 7)).1 = .ok again ∧
        again.id = first.id ∧
        (([.read (filling capacity)].foldl use
          ((after 0 uses).read (filling 7)).2).read (filling 7)).1 = .ok other ∧
        other.id ≠ first.id := by
  constructor
  · obtain ⟨hsize, hmem⟩ := known_fillings (show 7 ≤ capacity by decide)
    obtain ⟨nodes, hm⟩ := sound_after 0 (fillings 7)
    obtain ⟨n, hn⟩ := hm.exists_read (parse_filling 7)
    obtain ⟨-, -, h⟩ := remembers_faithfully 0 (fillings 7)
    have hadd := ((h (filling 7)).2.2.2.1 n (by simp [hmem]) hn).1 (by rw [hsize]; decide)
    rw [hadd.1, hsize]
  · obtain ⟨uses, hsize, hknown, hnew⟩ := exists_full
    obtain ⟨-, -, h⟩ := remembers_faithfully 0 uses
    obtain ⟨nodes, hm⟩ := sound_after 0 uses
    refine ⟨uses, hsize, ?_, (h (filling 7)).2.2.1 hknown, ?_, ?_⟩
    · have hparse : Expr.parse "a =" = .error (.grammatical ⟨3, .literal, none⟩) := by
        decide +kernel
      have hread := (h "a =").1.trans hparse
      cases hfail : ((after 0 uses).read "a =").1 with
      | error e => exact (h "a =").2.1 e hfail
      | ok n => simp [hfail, Except.map] at hread
    · obtain ⟨n, hn⟩ := hm.exists_read (parse_filling capacity)
      exact (((h (filling capacity)).2.2.2.1 n hnew hn).2 hsize.ge).1
    · obtain ⟨first, hfirst⟩ := hm.exists_read (parse_filling 7)
      obtain ⟨_, hm'⟩ := hm.use (.read (filling 7))
      obtain ⟨again, hagain⟩ := hm'.exists_read (parse_filling 7)
      obtain ⟨_, hm''⟩ := hm'.use (.read (filling capacity))
      obtain ⟨other, hother⟩ := hm''.exists_read (parse_filling 7)
      have hshare := (h (filling 7)).2.2.2.2 first
      refine ⟨first, again, other, hfirst, hagain, (hshare [] again hfirst hagain).mpr trivial,
        hother, fun hid => ?_⟩
      have hlast := (hshare [.read (filling capacity)] other hfirst hother).mp hid
      rw [(h (filling 7)).2.2.1 hknown] at hlast
      exact hlast.1 ⟨hnew, ⟨_, parse_filling capacity⟩, hsize.ge⟩

end Memory
end Criteria
