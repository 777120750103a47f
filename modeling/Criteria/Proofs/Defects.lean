import Criteria.Proofs.Validity

/-! The walks over a list of nodes against the recursive reading of an expression. The depth is the
length of a longest way from the root to a leaf. The check reports what is wrong with the first
node, of all nodes in the order of reading, with which anything is wrong. -/
namespace Criteria

theorem Binary64.isFinite_iff (x : Binary64) :
    x.isFinite = true ↔ x.isNaN = false ∧ x.magnitude ≠ infinity := by
  simp only [isFinite, isNaN, decide_eq_true_eq, decide_eq_false_iff_not]
  omega

theorem Binary64.isFinite_eq_false_iff (x : Binary64) :
    x.isFinite = false ↔ x.isNaN = true ∨ x.magnitude = infinity := by
  simp only [isFinite, isNaN, decide_eq_true_eq, decide_eq_false_iff_not]
  omega

theorem Scalar.isFinite_iff (s : Scalar) : s.isFinite = true ↔
    ∀ x, s = .number x → x.isNaN = false ∧ x.magnitude ≠ Binary64.infinity := by
  cases s <;> simp [isFinite, Binary64.isFinite_iff]

namespace Expr

/-- The nodes on a way from the root of an expression to one of its leaves. -/
inductive Branch : Expr → List Expr → Prop
  | leaf {c} : Branch (leaf c) [leaf c]
  | left {o l r nodes} (h : Branch l nodes) : Branch (join o l r) (join o l r :: nodes)
  | right {o l r nodes} (h : Branch r nodes) : Branch (join o l r) (join o l r :: nodes)
  | not {e nodes} (h : Branch e nodes) : Branch (not e) (not e :: nodes)

theorem Branch.length_le {e : Expr} {nodes : List Expr} (h : e.Branch nodes) :
    nodes.length ≤ e.height := by
  induction h with
  | leaf => exact Nat.le_refl _
  | left _ ih => exact Nat.succ_le_succ (Nat.le_trans ih (Nat.le_max_left _ _))
  | right _ ih => exact Nat.succ_le_succ (Nat.le_trans ih (Nat.le_max_right _ _))
  | not _ ih => exact Nat.succ_le_succ ih

theorem exists_branch (e : Expr) : ∃ nodes, e.Branch nodes ∧ nodes.length = e.height := by
  induction e with
  | leaf c => exact ⟨_, .leaf, rfl⟩
  | join o l r ihl ihr =>
    obtain ⟨ls, hls, hl⟩ := ihl
    obtain ⟨rs, hrs, hr⟩ := ihr
    rcases Nat.le_total l.height r.height with hle | hle
    · exact ⟨_, .right hrs, by rw [List.length_cons, hr, height, Nat.max_eq_right hle]⟩
    · exact ⟨_, .left hls, by rw [List.length_cons, hl, height, Nat.max_eq_left hle]⟩
  | not e ih =>
    obtain ⟨nodes, hnodes, h⟩ := ih
    exact ⟨_, .not hnodes, congrArg Nat.succ h⟩

/-- All nodes with their levels, each before its parts and the left part before the right one. -/
def preorder : Expr → ℕ → List (Expr × ℕ)
  | leaf c, level => [(leaf c, level)]
  | join o l r, level =>
    (join o l r, level) :: (l.preorder (level + 1) ++ r.preorder (level + 1))
  | not e, level => (not e, level) :: e.preorder (level + 1)

/-- What is wrong with a node. Its level is looked at before what it holds, and in a comparison the
name before the number. -/
inductive Offends : Expr × ℕ → Defect → Prop
  | level {e level} (h : 512 < level) : Offends (e, level) .tooDeep
  | name {c level} (hlevel : level ≤ 512) (h : Text.isName c.name = false) :
      Offends (leaf c, level) (.invalidName c.name)
  | number {c level x} (hlevel : level ≤ 512) (hname : Text.isName c.name = true)
      (hvalue : c.value = .number x) (h : x.isNaN = true ∨ x.magnitude = Binary64.infinity) :
      Offends (leaf c, level) (.notFinite c.name)

/-- The first of the listed nodes with which anything is wrong, and what that is. -/
def FirstOffends (nodes : List (Expr × ℕ)) (d : Defect) : Prop :=
  ∃ before node after, nodes = before ++ node :: after ∧
    (∀ other ∈ before, ∀ d, ¬ Offends other d) ∧ Offends node d

/-- What the check finds at one node. -/
def offence? : Expr × ℕ → Option Defect
  | (e, level) =>
    if maxDepth < level then some .tooDeep
    else match e with
      | leaf c => c.defect?
      | join _ _ _ | not _ => none

/-- The check of a comparison finds what is wrong with it where its level is not. -/
theorem offends_leaf_iff {c : Comparison} {level : ℕ} {d : Defect} (hlevel : level ≤ 512) :
    Offends (leaf c, level) d ↔ c.defect? = some d := by
  constructor
  · intro h
    cases h with
    | level h => exact absurd hlevel (Nat.not_le.mpr h)
    | name _ h => simp [Comparison.defect?, h]
    | number _ hname hvalue h =>
      have hfinite := (Binary64.isFinite_eq_false_iff _).mpr h
      simp [Comparison.defect?, hname, hvalue, Scalar.isFinite, hfinite]
  · intro h
    unfold Comparison.defect? at h
    split at h
    · rename_i hname
      cases h
      exact .name hlevel (by simpa using hname)
    · rename_i hname
      split at h
      · rename_i hvalue
        cases h
        cases hc : c.value with
        | number x =>
          rw [hc, Bool.not_eq_true'] at hvalue
          exact .number hlevel (by simpa using hname) hc (x.isFinite_eq_false_iff.mp hvalue)
        | boolean | string => simp [hc, Scalar.isFinite] at hvalue
      · cases h

theorem offence?_eq_some_iff {node : Expr × ℕ} {d : Defect} :
    offence? node = some d ↔ Offends node d := by
  obtain ⟨e, level⟩ := node
  by_cases hlevel : 512 < level
  · have htooDeep : offence? (e, level) = some .tooDeep := if_pos hlevel
    rw [htooDeep, Option.some.injEq]
    constructor
    · rintro rfl
      exact .level hlevel
    · intro h
      cases h with
      | level => rfl
      | name hle | number hle => omega
  · have hle : level ≤ 512 := Nat.not_lt.mp hlevel
    have hwithin : ¬ maxDepth < level := hlevel
    cases e with
    | leaf c =>
      simp only [offence?, if_neg hwithin]
      exact (offends_leaf_iff hle).symm
    | join | not =>
      simp only [offence?, if_neg hwithin, reduceCtorEq, false_iff]
      rintro (h | h)
      exact hlevel h

theorem offence?_eq_none_iff {node : Expr × ℕ} :
    offence? node = none ↔ ∀ d, ¬ Offends node d := by
  simp only [← offence?_eq_some_iff, Option.eq_none_iff_forall_ne_some, ne_eq]

/-- The walk looks at the nodes below those listed in the order of reading. -/
theorem firstDefect_eq_findSome? (todo : List (Expr × ℕ)) : firstDefect todo =
    (todo.flatMap fun node => node.1.preorder node.2).findSome? offence? := by
  fun_induction firstDefect todo with
  | case1 => rfl
  | case2 c level rest h => simp [preorder, offence?, h]
  | case3 c level rest h d hd => simp [preorder, offence?, h, hd]
  | case4 c level rest h hd ih => simp [preorder, offence?, h, hd, ih]
  | case5 o l r level rest h => simp [preorder, offence?, h]
  | case6 o l r level rest h ih => simp [preorder, offence?, h, ih, List.append_assoc]
  | case7 e level rest h => simp [preorder, offence?, h]
  | case8 e level rest h ih => simp [preorder, offence?, h, ih]

theorem defect?_eq_some_iff {e : Expr} {d : Defect} :
    e.defect? = some d ↔ FirstOffends (e.preorder 1) d := by
  rw [defect?, firstDefect_eq_findSome?, List.flatMap_singleton, List.findSome?_eq_some_iff]
  simp only [offence?_eq_some_iff, offence?_eq_none_iff, FirstOffends]
  constructor
  · rintro ⟨before, node, after, hnodes, hnode, hbefore⟩
    exact ⟨before, node, after, hnodes, hbefore, hnode⟩
  · rintro ⟨before, node, after, hnodes, hbefore, hnode⟩
    exact ⟨before, node, after, hnodes, hnode, hbefore⟩

theorem validate_eq_error_iff {e : Expr} {fault : Fault} :
    e.validate = .error fault ↔ ∃ d, e.defect? = some d ∧ fault = .invalid d := by
  unfold validate
  split
  · rename_i d hd
    simp [hd, eq_comm]
  · rename_i hd
    simp [hd]

/-- The walks agree with the recursive reading. The depth is the number of nodes on a longest way to
a leaf. The check passes an expression that is not too deep and whose comparisons are all in order,
and fails for the first node that is not. -/
theorem walks_agree (e : Expr) :
    ((∃ nodes, e.Branch nodes ∧ nodes.length = e.depth) ∧
      ∀ nodes, e.Branch nodes → nodes.length ≤ e.depth) ∧
    (e.validate = .ok () ↔ e.depth ≤ 512 ∧ ∀ c ∈ e.leaves, Text.isName c.name = true ∧
      ∀ x, c.value = .number x → x.isNaN = false ∧ x.magnitude ≠ Binary64.infinity) ∧
    ∀ fault, e.validate = .error fault ↔
      ∃ d, FirstOffends (e.preorder 1) d ∧ fault = .invalid d := by
  refine ⟨⟨?longest, ?bound⟩, ?passes, fun fault => ?fails⟩
  case longest =>
    rw [depth_eq_height]
    exact e.exists_branch
  case bound =>
    intro nodes h
    rw [depth_eq_height]
    exact h.length_le
  case passes =>
    rw [validate_eq_ok_iff, defect?_eq_none_iff]
    simp only [Comparison.defect?_eq_none_iff, Scalar.isFinite_iff, maxDepth]
  case fails =>
    simp only [validate_eq_error_iff, defect?_eq_some_iff]

/-- An infinite number under a NOT, before a keyword for a name and a value that is no number. -/
theorem walks_agree_infinite :
    let c : Comparison := ⟨"a", .less, .number ⟨0xfff0000000000000⟩⟩
    let d : Comparison := ⟨"or", .less, .number ⟨0x7ff8000000000000⟩⟩
    let e := join .and (not (leaf c)) (leaf d)
    e.Branch [e, not (leaf c), leaf c] ∧ 3 ≤ e.depth ∧
      e.validate = .error (.invalid (.notFinite "a")) := by
  intro c d e
  have hbranch : e.Branch [e, not (leaf c), leaf c] := .left (.not .leaf)
  obtain ⟨⟨-, hbound⟩, -, hfails⟩ := walks_agree e
  refine ⟨hbranch, hbound _ hbranch, (hfails _).mpr ⟨_, ?_, rfl⟩⟩
  refine ⟨[(e, 1), (not (leaf c), 2)], (leaf c, 3), [(leaf d, 2)], rfl, ?_, ?_⟩
  · have hnone : ∀ node ∈ [(e, 1), (not (leaf c), 2)], offence? node = none := by decide
    exact fun node hnode => offence?_eq_none_iff.mp (hnone node hnode)
  · exact .number (by decide) (by decide) rfl (.inr (by decide))

end Expr
end Criteria
