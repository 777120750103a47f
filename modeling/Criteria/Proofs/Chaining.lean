import Criteria.Expr.Printer
import Criteria.Proofs.Sharing.Stability
import Criteria.Proofs.Sharing.Transparency

/-! Chains of rules. How deep a chain is follows from the depths of its rules, and so does whether
it can be made. A combination can be taken for the rules it was made of, in front of further
rules. -/
namespace Criteria
namespace Expr

variable {o : Connective} {e first : Expr} {rest : List Expr}

theorem chain_append (o : Connective) (first : Expr) (xs ys : List Expr) :
    chain o first (xs ++ ys) = chain o (chain o first xs) ys :=
  List.foldl_append

theorem unsignedZeros_chain (o : Connective) (first : Expr) (rest : List Expr) :
    (chain o first rest).unsignedZeros =
      chain o first.unsignedZeros (rest.map unsignedZeros) := by
  induction rest generalizing first with
  | nil => rfl
  | cons e rest ih => exact ih (join o first e)

theorem depth_le_depth_chain (o : Connective) (first : Expr) (rest : List Expr) :
    first.depth ≤ (chain o first rest).depth := by
  induction rest generalizing first with
  | nil => exact le_rfl
  | cons e rest ih =>
    have hjoin := depth_join o first e
    exact le_trans (by omega) (ih (join o first e))

theorem unsignedZeros_chain_shared (o : Connective) (first : Expr) (rest : List Expr) :
    (chain o first.shared rest).unsignedZeros = (chain o first rest).unsignedZeros := by
  rw [unsignedZeros_chain, shared, unsignedZeros_signedBy, unsignedZeros_chain]

/-- The signs of a chain do not depend on whether its beginning was shared before. -/
theorem shared_chain_shared (o : Connective) (first : Expr) (rest : List Expr) :
    (chain o first.shared rest).shared = (chain o first rest).shared := by
  have hfind (c : Comparison) :
      (chain o first.shared rest).leaves.find? (·.unsignedZero = c.unsignedZero) =
        (chain o first rest).leaves.find? (·.unsignedZero = c.unsignedZero) := by
    rw [leaves_chain, leaves_chain, List.find?_append, find?_leaves_shared, List.find?_append]
  refine eq_signedBy ?_ fun c hc => ?_
  · rw [shared, unsignedZeros_signedBy, unsignedZeros_chain_shared]
  · rw [shared, leaves_signedBy] at hc
    obtain ⟨d, hd, rfl⟩ := List.mem_map.mp hc
    rw [Comparison.unsignedZero_signedBy, ← hfind, (Comparison.covered_of_mem hd).find?_eq]

/-- A combination stands for the rules it was made of, in front of further ones. -/
theorem combine_cons_of_combine {xs ys : List Expr} {s : Strategy} {deduplicate : Bool} {c : Expr}
    (h : combine xs s deduplicate = .ok c) (hys : ys ≠ []) :
    combine (c :: ys) s deduplicate = combine (xs ++ ys) s deduplicate := by
  obtain ⟨y, ys, rfl⟩ := List.exists_cons_of_ne_nil hys
  match xs with
  | [] | [_] => cases h
  | first :: second :: rest =>
    simp only [combine] at h
    split at h
    · cases h
    · obtain rfl := Except.ok.inj h
      have hwhole : chain s.connective first (second :: (rest ++ y :: ys)) =
          chain s.connective (chain s.connective first (second :: rest)) (y :: ys) := by
        rw [← List.cons_append, chain_append]
      simp only [combine, List.cons_append, hwhole]
      cases deduplicate with
      | false => rfl
      | true =>
        simp only [if_true, depth_congr (unsignedZeros_chain_shared ..), shared_chain_shared]

theorem combine_append_of_tooDeep {xs : List Expr} {s : Strategy} {deduplicate : Bool} 
    {depth max : ℕ} (h : combine xs s deduplicate = .error (.tooDeep depth max)) (ys : List Expr) :
    ∃ depth', combine (xs ++ ys) s deduplicate = .error (.tooDeep depth' max) := by
  match xs with
  | [] | [_] => cases h
  | first :: second :: rest =>
    simp only [combine] at h
    split at h
    · rename_i hdeep
      have hle := depth_le_depth_chain s.connective (chain s.connective first (second :: rest)) ys
      rw [← chain_append, List.cons_append] at hle
      cases h
      exact ⟨_, if_pos (hdeep.trans_le hle)⟩
    · cases h

end Expr

variable {nodes : Set Node} {fresh : ℕ} {rules xs ys : List Node} {s : Strategy}
  {deduplicate : Bool} {result : Node × ℕ}

theorem combine_eq_tooFew_iff (count : ℕ) : combine rules s deduplicate fresh =
    .error (.tooFew count) ↔ rules.length < 2 ∧ count = rules.length := by
  match rules with
  | [] | [_] => simp [combine, eq_comm]
  | first :: second :: rest =>
    simp only [combine, List.length_cons]
    split <;> simp

theorem combine_eq_tooDeep_iff {first second : Node} {rest : List Node} (depth max : ℕ) :
    combine (first :: second :: rest) s deduplicate fresh = .error (.tooDeep depth max) ↔
      Expr.maxDepth < chainDepth first (second :: rest) ∧
        depth = chainDepth first (second :: rest) ∧ max = Expr.maxDepth := by
  simp only [combine]
  split
  · rename_i hdeep
    simp [hdeep, eq_comm]
  · rename_i hdeep
    simp [hdeep]

theorem combine_ne_unknownStrategy (text : String) :
    combine rules s deduplicate fresh ≠ .error (.unknownStrategy text) := by
  match rules with
  | [] | [_] => simp [combine]
  | first :: second :: rest =>
    simp only [combine]
    split <;> simp

theorem pointwise_of_combine (h : Node.Arena nodes fresh) {first second : Node} {rest : List Node}
    (hmem : ∀ n ∈ first :: second :: rest, n ∈ nodes)
    (hresult : combine (first :: second :: rest) s deduplicate fresh = .ok result) :
    let joined := Expr.chain s.connective first.expr ((second :: rest).map Node.expr)
    Expr.Pointwise (Comparison.Resigned joined.leaves) joined result.1.expr ∧
      (deduplicate = false → result.1.expr = joined) := by
  intro joined
  obtain ⟨_, _, _, hrules, -, rfl⟩ := combine_eq_ok hresult
  cases hrules
  obtain ⟨larger, -, harena, hjoined⟩ := h.extends_chain s.connective
    (hmem first (by simp)) fun n hn => hmem n (List.mem_cons_of_mem _ hn)
  have hexpr : (chain s.connective first (second :: rest) fresh).1.expr = joined :=
    expr_chain s.connective first (second :: rest) fresh
  cases deduplicate with
  | false =>
    rw [if_neg (by decide), hexpr]
    exact ⟨Expr.pointwise_resigned rfl fun _ => id, fun _ => rfl⟩
  | true =>
    have hzeros := (harena.deduplicate hjoined).2
    have hleaves := harena.leaves_deduplicate hjoined
    rw [hexpr] at hzeros hleaves
    exact ⟨Expr.pointwise_resigned hzeros.symm hleaves, by simp⟩

/-- Fewer than two rules are too few. Otherwise their chain is too deep, in which case its very
depth and the limit are given, or there is a result that is the chain, but for the signs of zeros
where equal parts are shared. The depth is found without making the chain. -/
theorem combine_outcome (h : Node.Arena nodes fresh) (rules : List Node)
    (hmem : ∀ n ∈ rules, n ∈ nodes) (s : Strategy) (deduplicate : Bool) :
    (∀ count, combine rules s deduplicate fresh = .error (.tooFew count) ↔
      rules.length < 2 ∧ count = rules.length) ∧
    (∀ text, combine rules s deduplicate fresh ≠ .error (.unknownStrategy text)) ∧
    ∀ first second rest, rules = first :: second :: rest →
      let joined := Expr.chain s.connective first.expr ((second :: rest).map Node.expr)
      chainDepth first (second :: rest) = joined.height ∧
      (∀ depth max, combine rules s deduplicate fresh = .error (.tooDeep depth max) ↔
        512 < joined.height ∧ depth = joined.height ∧ max = 512) ∧
      (joined.height ≤ 512 → ∃ result, combine rules s deduplicate fresh = .ok result ∧
        result.1.expr.depth = joined.height ∧
        Expr.Pointwise (Comparison.Resigned joined.leaves) joined result.1.expr ∧
        (deduplicate = false → result.1.expr = joined)) := by
  refine ⟨combine_eq_tooFew_iff, combine_ne_unknownStrategy, ?_⟩
  rintro first second rest rfl joined
  have hdepth : chainDepth first (second :: rest) = joined.height := by
    rw [chainDepth_eq s.connective, Expr.depth_eq_height]
  refine ⟨hdepth, fun depth max => ?_, fun hle => ?_⟩
  · rw [← hdepth]
    exact combine_eq_tooDeep_iff depth max
  · rw [← Expr.depth_eq_height] at hle
    obtain ⟨result, hresult⟩ := exists_combine deduplicate fresh hle
    obtain ⟨hpoints, hsame⟩ := pointwise_of_combine h hmem hresult
    obtain ⟨-, hcombined⟩ := combined_of_combine h hmem hresult
    obtain ⟨_, _, _, hrules, hzeros⟩ := hcombined.exists_chain
    cases hrules
    exact ⟨result, hresult, (Expr.depth_congr hzeros).trans joined.depth_eq_height, hpoints, hsame⟩

open Node in
/-- Three rules, one of them twice, that are combined with the first zero for both, and one rule so
often that the chain is too deep by far. -/
theorem combine_outcome_zeros :
    (∃ result, combine [zero, minus, zero] .all true 2 = .ok result ∧ result.1.expr.depth = 3 ∧
      Expr.Pointwise (Comparison.Resigned [⟨"a", .less, .number ⟨0⟩⟩,
        ⟨"a", .less, .number ⟨0x8000000000000000⟩⟩, ⟨"a", .less, .number ⟨0⟩⟩])
        (.join .and (.join .and zero.expr minus.expr) zero.expr) result.1.expr) ∧
    combine [zero] .all true 2 = .error (.tooFew 1) ∧
    combine (zero :: List.replicate 99999 zero) .all true 2 = .error (.tooDeep 100000 512) := by
  have h := Node.Arena.zeros
  obtain ⟨-, -, hthree⟩ := combine_outcome h [zero, minus, zero] (by simp) .all true
  obtain ⟨hfew, -, -⟩ := combine_outcome h [zero] (by simp) .all true
  have hmany (k : ℕ) (hk : 511 ≤ k) :
      combine (zero :: List.replicate (k + 1) zero) .all true 2 =
        .error (.tooDeep (k + 2) 512) := by
    obtain ⟨-, -, hdeep⟩ :=
      combine_outcome h (zero :: List.replicate (k + 1) zero) (by simp) .all true
    obtain ⟨hdepth, hdeep, -⟩ := hdeep zero zero (List.replicate k zero) rfl
    have hlength : chainDepth zero (zero :: List.replicate k zero) = k + 2 := by
      rw [← List.replicate_succ, chainDepth_replicate, zero, expr, Expr.depth_leaf]
      omega
    rw [hlength] at hdepth
    exact (hdeep _ _).mpr (by omega)
  refine ⟨?_, (hfew 1).mpr (by simp), hmany 99998 (by decide)⟩
  obtain ⟨-, -, hok⟩ := hthree zero minus [zero] rfl
  obtain ⟨result, hresult, hdepth, hpoints, -⟩ := hok (by decide)
  exact ⟨result, hresult, hdepth, hpoints⟩

theorem noNaN_of_combine (h : Node.Arena nodes fresh)
    (hrules : ∀ n ∈ rules, n ∈ nodes ∧ n.expr.NoNaN)
    (hresult : combine rules s deduplicate fresh = .ok result) : result.1.expr.NoNaN := by
  obtain ⟨-, hcombined⟩ := combined_of_combine h (fun n hn => (hrules n hn).1) hresult
  obtain ⟨first, second, rest, rfl, hzeros⟩ := hcombined.exists_chain
  have hnumbers : ∀ n ∈ first :: second :: rest, n.expr.NoNaN := fun n hn => (hrules n hn).2
  rw [List.forall_mem_cons] at hnumbers
  exact (Expr.noNaN_congr hzeros).mpr
    (Expr.forall_leaves_chain _ hnumbers.1 (List.forall_mem_map.mpr hnumbers.2))

theorem exists_tooDeep_of_combine (hlength : 2 ≤ rules.length) {error : CombineError}
    (h : combine rules s deduplicate fresh = .error error) :
    ∃ depth max, error = .tooDeep depth max := by
  cases error with
  | tooFew count =>
    have hfew := ((combine_eq_tooFew_iff count).mp h).1
    omega
  | tooDeep depth max => exact ⟨depth, max, rfl⟩
  | unknownStrategy text => exact absurd h (combine_ne_unknownStrategy text)

theorem exists_arena_cons (h : Node.Arena nodes fresh) (hmem : ∀ n ∈ xs ++ ys, n ∈ nodes)
    (hresult : combine xs s deduplicate fresh = .ok result) {further : ℕ}
    (hfurther : result.2 ≤ further) :
    ∃ larger, Node.Arena larger further ∧ ∀ n ∈ result.1 :: ys, n ∈ larger := by
  rw [List.forall_mem_append] at hmem
  obtain ⟨⟨larger, hlarger, harena, hin⟩, -⟩ := combined_of_combine h hmem.1 hresult
  exact ⟨larger, harena.mono hfurther,
    List.forall_mem_cons.mpr ⟨hin, fun n hn => hlarger (hmem.2 n hn)⟩⟩

/-- A combination in front of further rules has the expression of all the rules combined. -/
theorem map_expr_combine_cons (h : Node.Arena nodes fresh) (hmem : ∀ n ∈ xs ++ ys, n ∈ nodes)
    (hys : ys ≠ []) (hresult : combine xs s deduplicate fresh = .ok result) {further later : ℕ}
    (hfurther : result.2 ≤ further) (hlater : fresh ≤ later) :
    (combine (result.1 :: ys) s deduplicate further).map (fun result => result.1.expr) =
      (combine (xs ++ ys) s deduplicate later).map fun result => result.1.expr := by
  obtain ⟨larger, harena, hstep⟩ := exists_arena_cons h hmem hresult hfurther
  have hpart := map_expr_combine h (List.forall_mem_append.mp hmem).1 s deduplicate
  rw [hresult] at hpart
  rw [map_expr_combine harena hstep, map_expr_combine (h.mono hlater) hmem, List.map_cons,
    List.map_append]
  exact Expr.combine_cons_of_combine hpart.symm (by simpa using hys)

theorem map_eq_error_iff {ε α β : Type} {x : Except ε α} (f : α → β) (e : ε) :
    x.map f = .error e ↔ x = .error e := by
  cases x <;> simp [Except.map]

theorem exists_map_eq_ok_iff {ε α β : Type} {x : Except ε α} (f : α → β) :
    (∃ b, x.map f = .ok b) ↔ ∃ a, x = .ok a := by
  cases x <;> simp [Except.map]

theorem combine_append_of_tooDeep (h : Node.Arena nodes fresh) (hmem : ∀ n ∈ xs ++ ys, n ∈ nodes)
    {depth max later : ℕ} (hlater : fresh ≤ later)
    (hdeep : combine xs s deduplicate fresh = .error (.tooDeep depth max)) :
    ∃ depth', combine (xs ++ ys) s deduplicate later = .error (.tooDeep depth' max) := by
  have hxs := map_expr_combine h (List.forall_mem_append.mp hmem).1 s deduplicate
  rw [hdeep] at hxs
  obtain ⟨depth', hdeep'⟩ := Expr.combine_append_of_tooDeep hxs.symm (ys.map Node.expr)
  rw [← List.map_append, ← map_expr_combine (h.mono hlater) hmem, map_eq_error_iff] at hdeep'
  exact ⟨depth', hdeep'⟩

/-- Rules can be combined step by step. A combination in front of further rules comes to what all
the rules come to at once, be it a result or how deep it would be, with as many nodes in it where
equal parts are shared. If the first rules are too deep already, so are all. -/
theorem combine_stepwise (h : Node.Arena nodes fresh) (s : Strategy) (deduplicate : Bool)
    (xs ys : List Node) (hxs : 2 ≤ xs.length) (hys : ys ≠ [])
    (hmem : ∀ n ∈ xs ++ ys, n ∈ nodes ∧ n.expr.NoNaN) {later : ℕ} (hlater : fresh ≤ later) :
    (∀ c next, combine xs s deduplicate fresh = .ok (c, next) → ∀ further, next ≤ further →
      ((∃ result, combine (c :: ys) s deduplicate further = .ok result) ↔
        ∃ result, combine (xs ++ ys) s deduplicate later = .ok result) ∧
      (∀ error, combine (c :: ys) s deduplicate further = .error error ↔
        combine (xs ++ ys) s deduplicate later = .error error) ∧
      (∀ error, combine (xs ++ ys) s deduplicate later = .error error →
        ∃ depth max, error = .tooDeep depth max) ∧
      ∀ result whole, combine (c :: ys) s deduplicate further = .ok result →
        combine (xs ++ ys) s deduplicate later = .ok whole →
        result.1.expr.agrees whole.1.expr = true ∧ result.1.expr.text = whole.1.expr.text ∧
          (deduplicate = true → result.1.count = whole.1.count)) ∧
    ∀ depth max, combine xs s deduplicate fresh = .error (.tooDeep depth max) →
      ∃ depth', combine (xs ++ ys) s deduplicate later = .error (.tooDeep depth' max) := by
  have hnodes : ∀ n ∈ xs ++ ys, n ∈ nodes := fun n hn => (hmem n hn).1
  have hlength : 2 ≤ (xs ++ ys).length := by
    rw [List.length_append]
    omega
  refine ⟨fun c next hpart further hfurther => ?_,
    fun depth max => combine_append_of_tooDeep h hnodes hlater⟩
  have hmap := map_expr_combine_cons h hnodes hys hpart hfurther hlater
  refine ⟨?_, fun error => ?_, fun error => exists_tooDeep_of_combine hlength,
    fun result whole hresult hwhole => ?_⟩
  · rw [← exists_map_eq_ok_iff fun result : Node × ℕ => result.1.expr, hmap, exists_map_eq_ok_iff]
  · rw [← map_eq_error_iff fun result : Node × ℕ => result.1.expr, hmap, map_eq_error_iff]
  · have hexpr : result.1.expr = whole.1.expr := by
      rw [hresult, hwhole] at hmap
      exact Except.ok.inj hmap
    refine ⟨?_, congrArg Expr.text hexpr, ?_⟩
    · have hnan := noNaN_of_combine (h.mono hlater) hmem hwhole
      rw [hexpr]
      exact (Expr.agrees_iff _ _).mpr ⟨hnan, rfl⟩
    · rintro rfl
      obtain ⟨larger, harena, hstep⟩ := exists_arena_cons h hnodes hpart hfurther
      rw [harena.count_combine hstep hresult, (h.mono hlater).count_combine hnodes hwhole, hexpr]

open Node in
/-- The zero that is met first stands for both, in one step or in two. Too many rules stay too many
with one more. -/
theorem combine_stepwise_zeros :
    (∃ part next result whole, combine [minus, zero] .any true 2 = .ok (part, next) ∧
      combine [part, zero, minus] .any true next = .ok result ∧
      combine [minus, zero, zero, minus] .any true 2 = .ok whole ∧
      result.1.expr.agrees whole.1.expr = true ∧ result.1.expr.text = whole.1.expr.text ∧
      result.1.count = whole.1.count) ∧
    ∃ depth, combine (zero :: List.replicate 512 zero ++ [minus]) .all false 2 =
      .error (.tooDeep depth Expr.maxDepth) := by
  have h := Node.Arena.zeros
  have hzero : zero.expr.NoNaN := by
    rw [Expr.NoNaN]
    decide
  have hminus : minus.expr.NoNaN := by
    rw [Expr.NoNaN]
    decide
  have hrules : ∀ n, n = zero ∨ n = minus → n ∈ ({minus, zero} : Set Node) ∧ n.expr.NoNaN := by
    rintro n (rfl | rfl)
    · exact ⟨by simp, hzero⟩
    · exact ⟨by simp, hminus⟩
  obtain ⟨⟨part, next⟩, hpart⟩ :
      ∃ result, combine [minus, zero] .any true 2 = .ok result := by
    refine exists_combine true 2 ?_
    rw [Expr.depth_eq_height]
    decide
  obtain ⟨whole, hwhole⟩ :
      ∃ result, combine [minus, zero, zero, minus] .any true 2 = .ok result := by
    refine exists_combine true 2 ?_
    rw [Expr.depth_eq_height]
    decide
  obtain ⟨hsteps, -⟩ := combine_stepwise h .any true [minus, zero] [zero, minus] (by decide)
    (by decide) (fun n hn => hrules n (by grind)) le_rfl
  obtain ⟨hok, -, -, hsame⟩ := hsteps part next hpart next le_rfl
  obtain ⟨result, hresult⟩ := hok.mpr ⟨whole, hwhole⟩
  obtain ⟨hagrees, htext, hcount⟩ := hsame result whole hresult hwhole
  refine ⟨⟨part, next, result, whole, hpart, hresult, hwhole, hagrees, htext, hcount rfl⟩, ?_⟩
  have hmany (k : ℕ) (hk : 512 ≤ k) : ∃ depth, combine (zero :: List.replicate k zero ++ [minus])
      .all false 2 = .error (.tooDeep depth Expr.maxDepth) := by
    have hlimit : Expr.maxDepth < zero.expr.depth + k := by
      rw [zero, expr, Expr.depth_leaf, Nat.add_comm]
      exact Nat.lt_succ_of_le hk
    obtain ⟨-, hdeep⟩ := combine_stepwise h .all false (zero :: List.replicate k zero) [minus]
      (by grind) (by decide) (fun n hn => hrules n (by grind)) le_rfl
    exact hdeep _ _ (combine_replicate zero (by omega) .all false 2 hlimit)
  exact hmany 512 le_rfl

end Criteria
