import Criteria.Proofs.Sharing.Interning

/-! What an interner has counted. Its second table holds exactly the nodes that were interned with
all below them, each once, and its two counters share these out: a node was either the first of its
shape or was given a representative that was there. -/
namespace Criteria
namespace Node

variable {n : Node}

/-- What the parts of a node take over from it holds at all places of it. -/
theorem forall_places {P : Node → Prop} (hparts : ∀ n, P n → ∀ m ∈ n.parts, P m) (h : P n) :
    ∀ m ∈ n.places, P m := by
  induction n with
  | leaf id c => simpa [places] using h
  | join id o l r ihl ihr =>
    have hl := ihl (hparts _ h l (by simp [parts]))
    have hr := ihr (hparts _ h r (by simp [parts]))
    simp only [places, List.forall_mem_append, List.forall_mem_singleton]
    exact ⟨⟨hl, hr⟩, h⟩
  | not id n ih =>
    have hn := ih (hparts _ h n (by simp [parts]))
    simp only [places, List.forall_mem_append, List.forall_mem_singleton]
    exact ⟨hn, h⟩

theorem map_expr_places (n : Node) : n.places.map expr = n.expr.subexprs := by
  induction n with
  | leaf id c => rfl
  | join id o l r ihl ihr => simp only [places, expr, Expr.subexprs, List.map_append, ihl, ihr,
      List.map_cons, List.map_nil]
  | not id n ih => simp only [places, expr, Expr.subexprs, List.map_append, ih, List.map_cons,
      List.map_nil]

theorem mem_leaves_expr_iff {c : Comparison} : c ∈ n.expr.leaves ↔ ∃ id, leaf id c ∈ n.places := by
  induction n with
  | leaf id d => simp [expr, Expr.leaves, places]
  | join id o l r ihl ihr => simp [expr, Expr.leaves, places, ihl, ihr, exists_or]
  | not id n ih => simp [expr, Expr.leaves, places, ih]

theorem size_le_of_mem_places {m : Node} (h : m ∈ n.places) : m.expr.size ≤ n.expr.size := by
  induction n with
  | leaf id c => simp_all [places]
  | join id o l r ihl ihr =>
    simp only [places, List.mem_append, List.mem_singleton] at h
    simp only [expr, Expr.size]
    rcases h with (h | h) | rfl
    · have hl := ihl h
      omega
    · have hr := ihr h
      omega
    · simp only [expr, Expr.size, le_refl]
  | not id n ih =>
    simp only [places, List.mem_append, List.mem_singleton] at h
    simp only [expr, Expr.size]
    rcases h with h | rfl
    · have hn := ih h
      omega
    · simp only [expr, Expr.size, le_refl]

/-- No node lies below itself. -/
theorem notMem_places_of_mem_parts {m : Node} (h : m ∈ n.parts) : n ∉ m.places := by
  intro hn
  have hle := size_le_of_mem_places hn
  cases n with
  | leaf id c => simp [parts] at h
  | join id o l r =>
    simp only [parts, List.mem_cons, List.not_mem_nil, or_false] at h
    simp only [expr, Expr.size] at hle
    rcases h with rfl | rfl <;> omega
  | not id n =>
    simp only [parts, List.mem_singleton] at h
    simp only [expr, Expr.size] at hle
    subst h
    omega

/-- A node with all nodes below it. -/
def reach (n : Node) : Set Node := {m | m ∈ n.places}

theorem mem_reach_self (n : Node) : n ∈ n.reach := by
  cases n <;> simp [reach, places]

theorem reach_leaf (id : ℕ) (c : Comparison) : (leaf id c).reach = {leaf id c} := by
  ext m
  simp [reach, places]

theorem reach_join (id : ℕ) (o : Connective) (l r : Node) :
    (join id o l r).reach = insert (join id o l r) (l.reach ∪ r.reach) := by
  ext m
  simp [reach, places, or_comm, or_left_comm]

theorem reach_not (id : ℕ) (n : Node) : (not id n).reach = insert (not id n) n.reach := by
  ext m
  simp [reach, places, or_comm]

theorem mem_reach_of_mem_parts {k m : Node} (hk : k ∈ n.reach) (hm : m ∈ k.parts) :
    m ∈ n.reach := by
  induction n with
  | leaf id c =>
    obtain rfl := List.mem_singleton.mp hk
    simp [parts] at hm
  | join id o l r ihl ihr =>
    rw [reach_join] at hk ⊢
    rcases hk with rfl | hk | hk
    · simp only [parts, List.mem_cons, List.not_mem_nil, or_false] at hm
      rcases hm with rfl | rfl
      · exact .inr (.inl m.mem_reach_self)
      · exact .inr (.inr m.mem_reach_self)
    · exact .inr (.inl (ihl hk))
    · exact .inr (.inr (ihr hk))
  | not id n ih =>
    rw [reach_not] at hk ⊢
    rcases hk with rfl | hk
    · obtain rfl := List.mem_singleton.mp hm
      exact .inr m.mem_reach_self
    · exact .inr (ih hk)

theorem Arena.reach_subset {nodes : Set Node} {fresh : ℕ} (h : Arena nodes fresh)
    (hn : n ∈ nodes) : n.reach ⊆ nodes :=
  forall_places h.closed hn

end Node

namespace Interner

/-- What the tables and the counters of a state say of the nodes `met` that were interned. -/
structure Tally (met : Set Node) (s : Interner) : Prop where
  closed : ∀ n ∈ met, ∀ m ∈ n.parts, m ∈ met
  visited : ∀ id, id ∈ s.visited ↔ ∃ n ∈ met, n.id = id
  table : ∀ (shape : Shape) v, s.table[shape]? = some v → ∃ n ∈ met, s.visited[n.id]? = some v
  leaf : ∀ (shape : Shape) id c, s.table[shape]? = some (.leaf id c) → .leaf id c ∈ met
  count : s.unique + s.reused = s.visited.size

variable {nodes met : Set Node} {s : Interner} {n v : Node}

theorem tally_empty (fresh : ℕ) : Tally ∅ { fresh } :=
  ⟨by simp, by simp, by simp, by simp, rfl⟩

/-- All nodes below a representative are representatives. -/
theorem Invariant.keeps_of_mem_places (hs : Invariant nodes s) (hv : s.Keeps v) :
    ∀ m ∈ v.places, s.Keeps m :=
  Node.forall_places (fun _ hn => (hs.of_keeps hn).2) hv

theorem Tally.closed_insert (h : Tally met s) (hparts : ∀ m ∈ n.parts, m ∈ met) :
    ∀ k ∈ insert n met, ∀ m ∈ k.parts, m ∈ insert n met := by
  rintro k (rfl | hk) m hm
  · exact .inr (hparts m hm)
  · exact .inr (h.closed k hk m hm)

theorem Tally.visited_insert (h : Tally met s) (v : Node) (id : ℕ) :
    id ∈ s.visited.insert n.id v ↔ ∃ k ∈ insert n met, k.id = id := by
  simp only [Std.HashMap.mem_insert, beq_iff_eq, h.visited, Set.mem_insert_iff, exists_eq_or_imp]

/-- The entries of the nodes met before stay what they were. -/
theorem getElem?_visited_insert {k w : Node} (hnew : n.id ∉ s.visited)
    (hk : s.visited[k.id]? = some v) : (s.visited.insert n.id w)[k.id]? = some v := by
  have hne : n.id ≠ k.id := by
    intro heq
    rw [heq, Std.HashMap.mem_iff_isSome_getElem?, hk] at hnew
    exact hnew rfl
  rw [Std.HashMap.getElem?_insert, if_neg (by simpa using hne)]
  exact hk

/-- A node that is met for the first time is counted once. -/
theorem Tally.represent (h : Tally met s) (hnew : n.id ∉ s.visited)
    (hparts : ∀ m ∈ n.parts, m ∈ met) {shape : Shape} {build : ℕ → Node × ℕ}
    (hbuild : ∀ id c, (build s.fresh).1 = .leaf id c → n = .leaf id c) :
    Tally (insert n met) (s.represent n.id shape build).2 := by
  have htable {shape : Shape} {v w : Node} (hv : s.table[shape]? = some v) :
      ∃ k ∈ insert n met, (s.visited.insert n.id w)[k.id]? = some v := by
    obtain ⟨k, hk, hget⟩ := h.table shape v hv
    exact ⟨k, .inr hk, getElem?_visited_insert hnew hget⟩
  have hsize (v : Node) : (s.visited.insert n.id v).size = s.visited.size + 1 := by
    rw [Std.HashMap.size_insert, if_neg hnew]
  have hcount := h.count
  unfold Interner.represent
  split
  · refine ⟨h.closed_insert hparts, h.visited_insert _, fun shape v hv => htable hv, ?_, ?_⟩
    · exact fun shape id c hv => .inr (h.leaf shape id c hv)
    · simp only [unique, hsize] at hcount ⊢
      omega
  · rename_i hnone
    refine ⟨h.closed_insert hparts, h.visited_insert _, ?_, ?_, ?_⟩
    · intro k v hv
      simp only [Std.HashMap.getElem?_insert] at hv
      split at hv
      · cases hv
        exact ⟨n, .inl rfl, Std.HashMap.getElem?_insert_self⟩
      · exact htable hv
    · intro k id c hv
      simp only [Std.HashMap.getElem?_insert] at hv
      split at hv
      · exact .inl (hbuild id c (Option.some.inj hv)).symm
      · exact .inr (h.leaf k id c hv)
    · have hshape : shape ∉ s.table := by
        rw [Std.HashMap.mem_iff_isSome_getElem?, hnone]
        simp
      simp only [unique, hsize, Std.HashMap.size_insert, if_neg hshape] at hcount ⊢
      omega

/-- A node that was met before is not counted again, and neither is any below it. -/
theorem Tally.of_mem_visited (h : Tally met s) (hs : Invariant nodes s) (hmet : met ⊆ nodes)
    (hn : n ∈ nodes) (hv : s.visited[n.id]? = some v) : Tally (met ∪ n.reach) s := by
  have hid : n.id ∈ s.visited := by
    rw [Std.HashMap.mem_iff_isSome_getElem?, hv]
    rfl
  obtain ⟨m, hm, heq⟩ := (h.visited n.id).mp hid
  obtain rfl := hs.arena.unique m (hmet hm) n hn heq
  have hreach : m.reach ⊆ met := Node.forall_places h.closed hm
  rwa [Set.union_eq_self_of_subset_right hreach]

theorem Tally.notMem_of_visited_eq_none (h : Tally met s) (hnone : s.visited[n.id]? = none) :
    n ∉ met := by
  intro hn
  have hid := (h.visited n.id).mpr ⟨n, hn, rfl⟩
  rw [Std.HashMap.mem_iff_isSome_getElem?, hnone] at hid
  cases hid

theorem Tally.id_notMem_visited (h : Tally met s) (hs : Invariant nodes s) (hmet : met ⊆ nodes)
    (hn : n ∈ nodes) (hnew : n ∉ met) : n.id ∉ s.visited := by
  intro hid
  obtain ⟨m, hm, heq⟩ := (h.visited n.id).mp hid
  obtain rfl := hs.arena.unique m (hmet hm) n hn heq
  exact hnew hm

/-- Interning a node counts it and all nodes below it. -/
theorem Tally.intern (n : Node) (hs : Invariant nodes s) (hn : n ∈ nodes) (hmet : met ⊆ nodes)
    (h : Tally met s) : Tally (met ∪ n.reach) (intern n s).2 := by
  induction n generalizing nodes met s with
  | leaf id c =>
    rw [Interner.intern]
    split
    · rename_i v hv
      exact h.of_mem_visited hs hmet hn hv
    · rename_i hnone
      have hnew : .leaf id c ∉ met := h.notMem_of_visited_eq_none hnone
      have hid := h.id_notMem_visited hs hmet hn hnew
      rw [Node.reach_leaf, Set.union_singleton]
      exact h.represent hid (by simp [Node.parts]) fun _ _ heq => heq
  | join id o left right ihl ihr =>
    rw [Interner.intern]
    split
    · rename_i v hv
      exact h.of_mem_visited hs hmet hn hv
    · rename_i hnone
      obtain ⟨hleft, hright⟩ := hs.arena.parts_join hn
      obtain ⟨⟨ls, hls, hinvl⟩, -⟩ := interned_intern left hs hleft
      obtain ⟨⟨rs, hrs, hinvr⟩, -⟩ := interned_intern right hinvl (hls hright)
      have hl := ihl hs hleft hmet h
      have hlsub := Set.union_subset hmet (hs.arena.reach_subset hleft)
      have hr := ihr hinvl (hls hright) (hlsub.trans hls) hl
      have hrsub := Set.union_subset hlsub (hs.arena.reach_subset hright)
      have hbefore : .join id o left right ∉ met := h.notMem_of_visited_eq_none hnone
      have hnew : .join id o left right ∉ met ∪ left.reach ∪ right.reach := by
        rintro ((hmem | hmem) | hmem)
        · exact hbefore hmem
        · exact Node.notMem_places_of_mem_parts (by simp [Node.parts]) hmem
        · exact Node.notMem_places_of_mem_parts (by simp [Node.parts]) hmem
      have hid := hr.id_notMem_visited hinvr (hrsub.trans (hls.trans hrs)) (hrs (hls hn)) hnew
      rw [Node.reach_join, Set.union_insert, ← Set.union_assoc]
      refine hr.represent hid ?_ ?_
      · simp [Node.parts, Node.mem_reach_self]
      · intro i c heq
        split at heq <;> cases heq
  | not id operand ih =>
    rw [Interner.intern]
    split
    · rename_i v hv
      exact h.of_mem_visited hs hmet hn hv
    · rename_i hnone
      have hoperand := hs.arena.part_not hn
      obtain ⟨⟨larger, hlarger, hinv⟩, -⟩ := interned_intern operand hs hoperand
      have ho := ih hs hoperand hmet h
      have hsub := Set.union_subset hmet (hs.arena.reach_subset hoperand)
      have hbefore : .not id operand ∉ met := h.notMem_of_visited_eq_none hnone
      have hnew : .not id operand ∉ met ∪ operand.reach := by
        rintro (hmem | hmem)
        · exact hbefore hmem
        · exact Node.notMem_places_of_mem_parts (by simp [Node.parts]) hmem
      have hid := ho.id_notMem_visited hinv (hsub.trans hlarger) (hlarger hn) hnew
      rw [Node.reach_not, Set.union_insert]
      refine ho.represent hid ?_ ?_
      · simp [Node.parts, Node.mem_reach_self]
      · intro i c heq
        split at heq <;> cases heq

end Interner
end Criteria
