import Criteria.Evaluation
import Criteria.Proofs.Encoding
import Mathlib.Tactic.Lemma

/-! Strings where they can be ordered. Equality is decided apart from order and by other means, yet
all six operators come from the one order of code points. -/
namespace Criteria

namespace Operator

variable {o : Operator} {a b : Ordering}

/-- The operators of equality see nothing else of how two values compare. -/
lemma accepts_congr (ho : o.isEquality = true) (h : a = .eq ↔ b = .eq) :
    o.accepts (some a) = o.accepts (some b) := by
  cases o with
  | equal | notEqual => cases a <;> cases b <;> simp at h <;> rfl
  | greater | less | greaterEqual | lessEqual => cases ho

lemma existsUnique_accepts (a : Ordering) :
    ∃! o, o ∈ [less, equal, greater] ∧ o.accepts (some a) = true := by
  cases a with
  | lt => exact ⟨less, by decide, by rintro (_ | _) <;> simp [accepts]⟩
  | eq => exact ⟨equal, by decide, by rintro (_ | _) <;> simp [accepts]⟩
  | gt => exact ⟨greater, by decide, by rintro (_ | _) <;> simp [accepts]⟩

end Operator

open Text (codePoints compareBytes)

namespace Record

variable {r : Record} {name v l : String}

/-- The attribute compares so with a literal string, where strings can be ordered. -/
def Holds (r : Record) (name : String) (o : Operator) (literal : String) : Prop :=
  Comparison.evaluate ⟨name, o, .string literal⟩ .lexicographic r = .ok true

/-- Both ways to compare two strings come to the order of their code points. -/
theorem evaluate_string (h : r.get? name = some (.string v)) (o : Operator) (l : String) :
    Comparison.evaluate ⟨name, o, .string l⟩ .lexicographic r =
      .ok (o.accepts (some (compare (codePoints v) (codePoints l)))) := by
  have hequal : compare v l = .eq ↔ compare (codePoints v) (codePoints l) = .eq := by
    rw [Std.compare_eq_iff_eq, Std.compare_eq_iff_eq, Text.codePoints_inj]
  rw [Comparison.evaluate, h]
  cases ho : o.isEquality with
  | true =>
    simp only [Comparison.verdict, ho, if_true]
    rw [Operator.accepts_congr ho hequal]
  | false =>
    simp only [Comparison.verdict, ho, Text.compareBytes_eq]
    rfl

lemma holds_iff (h : r.get? name = some (.string v)) (o : Operator) (l : String) :
    r.Holds name o l ↔ o.accepts (some (compare (codePoints v) (codePoints l))) = true := by
  rw [Holds, evaluate_string h, Except.ok.injEq]

lemma holds_less_iff (h : r.get? name = some (.string v)) (l : String) :
    r.Holds name .less l ↔ codePoints v < codePoints l := by
  rw [holds_iff h, ← Text.compare_eq_lt_iff]
  simp [Operator.accepts]

lemma holds_greater_iff (h : r.get? name = some (.string v)) (l : String) :
    r.Holds name .greater l ↔ codePoints l < codePoints v := by
  rw [holds_iff h, ← Text.compare_eq_lt_iff, ← Std.OrientedCmp.gt_iff_lt]
  simp [Operator.accepts]

lemma holds_equal_iff (h : r.get? name = some (.string v)) (l : String) :
    r.Holds name .equal l ↔ v = l := by
  rw [holds_iff h, ← Text.codePoints_inj, ← Std.compare_eq_iff_eq]
  simp [Operator.accepts]

/-- What the operators come to on a string of a record and a literal string. -/
structure StringOrder (r : Record) (name v l : String) : Prop where
  bytes : compareBytes v l = compare (codePoints v) (codePoints l)
  decided : ∀ o, ∃ b,
    Comparison.evaluate ⟨name, o, .string l⟩ .lexicographic r = .ok b
  less : r.Holds name .less l ↔ codePoints v < codePoints l
  greater : r.Holds name .greater l ↔ codePoints l < codePoints v
  equal : r.Holds name .equal l ↔ v = l
  one : ∃! o, o ∈ [Operator.less, .equal, .greater] ∧ r.Holds name o l
  notEqual : r.Holds name .notEqual l ↔ ¬ r.Holds name .equal l
  lessEqual : r.Holds name .lessEqual l ↔ r.Holds name .less l ∨ r.Holds name .equal l
  greaterEqual : r.Holds name .greaterEqual l ↔ r.Holds name .greater l ∨ r.Holds name .equal l
  lessEqual_iff_not : r.Holds name .lessEqual l ↔ ¬ r.Holds name .greater l
  greaterEqual_iff_not : r.Holds name .greaterEqual l ↔ ¬ r.Holds name .less l
  trans : ∀ (r' : Record) (name' m : String), r'.get? name' = some (.string l) →
    r.Holds name .less l → r'.Holds name' .less m → r.Holds name .less m

/-- On strings the operators are those of one total order, which is that of the code points and also
that of the encodings. -/
theorem strings_totally_ordered (h : r.get? name = some (.string v)) (l : String) :
    r.StringOrder name v l := by
  have hholds (o : Operator) := holds_iff h o l
  constructor
  case bytes => exact Text.compareBytes_eq v l
  case decided => exact fun o => ⟨_, evaluate_string h o l⟩
  case less => exact holds_less_iff h l
  case greater => exact holds_greater_iff h l
  case equal => exact holds_equal_iff h l
  case one =>
    simp only [hholds]
    exact Operator.existsUnique_accepts _
  case trans =>
    intro r' name' m h' hless hless'
    rw [holds_less_iff h] at hless ⊢
    rw [holds_less_iff h'] at hless'
    exact List.lt_trans hless hless'
  all_goals
    simp only [hholds]
    cases compare (codePoints v) (codePoints l) <;> decide

/-- A character of three bytes comes before one of four, and the beginning of a string before the
string. -/
theorem strings_totally_ordered_planes :
    let r := Record.empty.insert "a" (.string "z\uffee")
    let r' := Record.empty.insert "b" (.string "z😀")
    (r.Holds "a" .less "z😀" ∧ r.Holds "a" .notEqual "z😀" ∧ ¬ r.Holds "a" .greaterEqual "z😀") ∧
      r.Holds "a" .greater "z" ∧ r.Holds "a" .lessEqual "z\uffee" ∧
      r'.Holds "b" .less "~" ∧ r.Holds "a" .less "~" := by
  intro r r'
  have hr : r.get? "a" = some (.string "z\uffee") := by decide +kernel
  have hr' : r'.get? "b" = some (.string "z😀") := by decide +kernel
  have hplanes := strings_totally_ordered hr "z😀"
  have hfront := strings_totally_ordered hr "z"
  have hself := strings_totally_ordered hr "z\uffee"
  have hless : r.Holds "a" .less "z😀" := hplanes.less.mpr (by decide)
  have hless' : r'.Holds "b" .less "~" := (strings_totally_ordered hr' "~").less.mpr (by decide)
  have hne : ¬ r.Holds "a" .equal "z😀" :=
    fun hequal => absurd (hplanes.equal.mp hequal) (by decide)
  refine ⟨⟨hless, hplanes.notEqual.mpr hne, fun hge => hplanes.greaterEqual_iff_not.mp hge hless⟩,
    hfront.greater.mpr (by decide), hself.lessEqual.mpr (.inr (hself.equal.mpr rfl)), hless', ?_⟩
  exact hplanes.trans r' "b" "~" hr' hless hless'

end Record
end Criteria
