import Criteria.Proofs.Sharing.Signs

/-! A combination gives what a scan of its rules gives, one rule after the other up to the first
that decides, whether or not its equal parts are shared. -/
namespace Criteria
namespace Strategy

/-- The result of one rule that is the result of all. -/
def decisive : Strategy → Bool
  | any => true
  | all => false

/-- Looks at the results of rules in their order. The first error or decisive result is that of the
scan, and without either the rules agree on the other result. -/
def scan {ε : Type} (s : Strategy) : List (Except ε Bool) → Except ε Bool
  | [] => .ok !s.decisive
  | .error e :: _ => .error e
  | .ok b :: rest => if b = s.decisive then .ok b else s.scan rest

/-- Joining the first two results first makes no difference. -/
theorem scan_combine (s : Strategy) (a b : Except EvalError Bool)
    (rest : List (Except EvalError Bool)) :
    s.scan (s.connective.combine a (fun _ => b) :: rest) = s.scan (a :: b :: rest) := by
  cases a with
  | error e => cases s <;> rfl
  | ok a => cases s <;> cases a <;> rfl

theorem scan_singleton {ε : Type} (s : Strategy) (a : Except ε Bool) : s.scan [a] = a := by
  cases a with
  | error e => rfl
  | ok a => cases s <;> cases a <;> rfl

end Strategy

/-- Expressions joined from left to right. -/
def Expr.chain (o : Connective) (first : Expr) (rest : List Expr) : Expr :=
  rest.foldl (join o) first

theorem expr_chain (o : Connective) (first : Node) (rest : List Node) (fresh : ℕ) :
    (chain o first rest fresh).1.expr = Expr.chain o first.expr (rest.map Node.expr) := by
  induction rest generalizing first fresh with
  | nil => rfl
  | cons n rest ih => exact ih (.join fresh o first n) (fresh + 1)

theorem chainDepth_eq (o : Connective) (first : Node) (rest : List Node) :
    chainDepth first rest = (Expr.chain o first.expr (rest.map Node.expr)).depth := by
  have main : ∀ e : Expr, rest.foldl (fun depth n => max depth n.expr.depth + 1) e.depth =
      (Expr.chain o e (rest.map Node.expr)).depth := by
    induction rest with
    | nil => exact fun e => rfl
    | cons n rest ih =>
      intro e
      rw [List.foldl_cons, ← Expr.depth_join o]
      exact ih (.join o e n.expr)
  exact main first.expr

/-- Equal rules make a chain that is one level deeper with each of them. -/
theorem chainDepth_replicate (n : Node) (k : ℕ) :
    chainDepth n (List.replicate k n) = n.expr.depth + k := by
  have main (k d : ℕ) (hd : n.expr.depth ≤ d) : (List.replicate k n).foldl
      (fun depth m => max depth m.expr.depth + 1) d = d + k := by
    induction k generalizing d with
    | zero => rfl
    | succ k ih =>
      rw [List.replicate_succ, List.foldl_cons, Nat.max_eq_left hd, ih _ (by omega)]
      omega
  exact main k _ le_rfl

/-- One rule can be joined with itself only so often. -/
theorem combine_replicate (n : Node) {k : ℕ} (hk : 0 < k) (s : Strategy) (deduplicate : Bool)
    (fresh : ℕ) (h : Expr.maxDepth < n.expr.depth + k) :
    combine (n :: List.replicate k n) s deduplicate fresh =
      .error (.tooDeep (n.expr.depth + k) Expr.maxDepth) := by
  obtain ⟨k, rfl⟩ := Nat.exists_eq_succ_of_ne_zero hk.ne'
  rw [← chainDepth_replicate] at h ⊢
  exact if_pos h

theorem evaluate_chain (s : Strategy) (ordering : StringOrdering) (r : Record) (first : Expr)
    (rest : List Expr) : (Expr.chain s.connective first rest).evaluate ordering r =
      s.scan ((first :: rest).map (Expr.evaluate ordering r)) := by
  induction rest generalizing first with
  | nil => exact (s.scan_singleton _).symm
  | cons e rest ih =>
    refine (ih (.join s.connective first e)).trans ?_
    exact s.scan_combine _ _ _

/-- A combination has the expression of the chain of its rules, up to the signs of zeros. -/
structure Combined (rules : List Node) (s : Strategy) (e : Expr) : Prop where
  exists_chain : ∃ first second rest, rules = first :: second :: rest ∧
    e.unsignedZeros = (Expr.chain s.connective first.expr
      ((second :: rest).map Node.expr)).unsignedZeros
  depth_le : e.depth ≤ Expr.maxDepth

theorem Combined.evaluate {rules : List Node} {s : Strategy} {e : Expr} (h : Combined rules s e)
    (ordering : StringOrdering) (r : Record) :
    e.evaluate ordering r = s.scan (rules.map (Node.evaluate ordering r)) := by
  obtain ⟨first, second, rest, rfl, he⟩ := h.exists_chain
  rw [Expr.evaluate_congr he, evaluate_chain, ← List.map_cons, List.map_map]
  congr 2
  funext n
  exact (n.evaluate_eq ordering r).symm

theorem Expr.leaves_chain (o : Connective) (first : Expr) (rest : List Expr) :
    (chain o first rest).leaves = first.leaves ++ rest.flatMap leaves := by
  induction rest generalizing first with
  | nil => simp [chain]
  | cons e rest ih =>
    refine (ih (join o first e)).trans ?_
    simp [leaves]

theorem Expr.forall_leaves_chain {P : Comparison → Prop} (o : Connective) {first : Expr}
    {rest : List Expr} (hfirst : ∀ c ∈ first.leaves, P c)
    (hrest : ∀ e ∈ rest, ∀ c ∈ e.leaves, P c) : ∀ c ∈ (chain o first rest).leaves, P c := by
  rw [leaves_chain, List.forall_mem_append, List.forall_mem_flatMap]
  exact ⟨hfirst, hrest⟩

/-- A combination of rules without defects has none. -/
theorem Combined.defect?_eq_none {rules : List Node} {s : Strategy} {e : Expr}
    (h : Combined rules s e) (hrules : ∀ n ∈ rules, n.expr.defect? = none) : e.defect? = none := by
  obtain ⟨first, second, rest, rfl, he⟩ := h.exists_chain
  refine (Expr.defect?_eq_none_iff e).mpr ⟨h.depth_le, (Expr.forall_defect?_congr he).mpr ?_⟩
  have hleaves : ∀ n ∈ first :: second :: rest, ∀ c ∈ n.expr.leaves, c.defect? = none :=
    fun n hn => ((Expr.defect?_eq_none_iff _).mp (hrules n hn)).2
  rw [List.forall_mem_cons] at hleaves
  exact Expr.forall_leaves_chain _ hleaves.1 (List.forall_mem_map.mpr hleaves.2)

theorem combine_eq_ok {rules : List Node} {s : Strategy} {deduplicate : Bool} {fresh : ℕ}
    {result : Node × ℕ} (h : combine rules s deduplicate fresh = .ok result) :
    ∃ first second rest, rules = first :: second :: rest ∧
      chainDepth first (second :: rest) ≤ Expr.maxDepth ∧
      result = if deduplicate
        then (chain s.connective first (second :: rest) fresh).1.deduplicate
          (chain s.connective first (second :: rest) fresh).2
        else chain s.connective first (second :: rest) fresh := by
  match rules with
  | [] | [_] => cases h
  | first :: second :: rest =>
    simp only [combine] at h
    split at h
    · cases h
    · rename_i hdepth
      cases h
      exact ⟨first, second, rest, rfl, Nat.not_lt.mp hdepth, rfl⟩

/-- Two rules and more can be combined if their chain is not too deep. -/
theorem exists_combine {first second : Node} {rest : List Node} {s : Strategy}
    (deduplicate : Bool) (fresh : ℕ)
    (h : (Expr.chain s.connective first.expr ((second :: rest).map Node.expr)).depth ≤
      Expr.maxDepth) :
    ∃ result, combine (first :: second :: rest) s deduplicate fresh = .ok result := by
  rw [← chainDepth_eq] at h
  simp only [combine, if_neg (Nat.not_lt.mpr h)]
  exact ⟨_, rfl⟩

/-- A combination of the nodes of an arena extends that arena. -/
theorem combined_of_combine {nodes : Set Node} {fresh : ℕ} (h : Node.Arena nodes fresh)
    {rules : List Node} (hrules : ∀ n ∈ rules, n ∈ nodes) {s : Strategy} {deduplicate : Bool}
    {result : Node × ℕ} (hresult : combine rules s deduplicate fresh = .ok result) :
    Node.Extends nodes result ∧ Combined rules s result.1.expr := by
  obtain ⟨first, second, rest, rfl, hdepth, rfl⟩ := combine_eq_ok hresult
  rw [List.forall_mem_cons] at hrules
  obtain ⟨larger, hlarger, harena, hmem⟩ := h.extends_chain s.connective hrules.1 hrules.2
  rw [chainDepth_eq s.connective] at hdepth
  have hexpr := expr_chain s.connective first (second :: rest) fresh
  cases deduplicate with
  | false =>
    exact ⟨⟨larger, hlarger, harena, hmem⟩, ⟨first, second, rest, rfl, congrArg _ hexpr⟩,
      hexpr ▸ hdepth⟩
  | true =>
    obtain ⟨⟨all, hall, hresult⟩, hzeros⟩ := harena.deduplicate hmem
    rw [hexpr] at hzeros
    exact ⟨⟨all, hlarger.trans hall, hresult⟩, ⟨first, second, rest, rfl, hzeros⟩,
      (Expr.depth_congr hzeros).trans_le hdepth⟩

/-- The combination of expressions. Where equal parts are shared, each comparison has the signs of
zeros that it has where it stands first. -/
def Expr.combine (rules : List Expr) (s : Strategy) (deduplicate : Bool) :
    Except CombineError Expr :=
  match rules with
  | first :: second :: rest =>
    let joined := chain s.connective first (second :: rest)
    if maxDepth < joined.depth then .error (.tooDeep joined.depth maxDepth)
    else .ok (if deduplicate then joined.shared else joined)
  | _ => .error (.tooFew rules.length)

/-- The expression of a combination follows from those of the rules, whichever nodes these have. -/
theorem map_expr_combine {nodes : Set Node} {fresh : ℕ} (h : Node.Arena nodes fresh)
    {rules : List Node} (hrules : ∀ n ∈ rules, n ∈ nodes) (s : Strategy) (deduplicate : Bool) :
    (combine rules s deduplicate fresh).map (fun result => result.1.expr) =
      Expr.combine (rules.map Node.expr) s deduplicate := by
  match rules with
  | [] | [_] => rfl
  | first :: second :: rest =>
    rw [List.forall_mem_cons] at hrules
    obtain ⟨larger, -, harena, hmem⟩ := h.extends_chain s.connective hrules.1 hrules.2
    have hexpr := expr_chain s.connective first (second :: rest) fresh
    have hdepth := chainDepth_eq s.connective first (second :: rest)
    simp only [combine, Expr.combine, List.map_cons] at hexpr hdepth ⊢
    rw [hdepth]
    split
    · rfl
    · cases deduplicate with
      | false => exact congrArg Except.ok hexpr
      | true =>
        simp only [if_true, Except.map, harena.expr_deduplicate hmem, hexpr]

end Criteria
