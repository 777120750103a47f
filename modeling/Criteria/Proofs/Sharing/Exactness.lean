import Criteria.Proofs.Sharing.Transparency
import Mathlib.Data.Finset.Card

/-! Sharing is exact over whole runs of one interner. Nodes below its results are the same just if
their expressions are equal by value, and its counters give the number of different expressions and
the number of different nodes that it has met. -/
namespace Criteria
namespace Interner

variable {nodes met : Set Node} {s : Interner} {n v w : Node}

theorem Invariant.of_visited (hs : Invariant nodes s) (hn : n ∈ nodes)
    (hv : s.visited[n.id]? = some v) :
    s.Keeps v ∧ v.expr.unsignedZeros = n.expr.unsignedZeros := by
  obtain ⟨hkeeps, m, hm, hid, hexpr⟩ := hs.visited n.id v hv
  obtain rfl := hs.arena.unique m hm n hn hid
  exact ⟨hkeeps, hexpr⟩

theorem Keeps.eq_of_shape_eq (hv : s.Keeps v) (hw : s.Keeps w) (h : v.shape = w.shape) :
    v = w := by
  rw [Keeps, h] at hv
  exact Option.some.inj (hv.symm.trans hw)

/-- An expression has one representative. -/
theorem Invariant.eq_of_unsignedZeros_eq (hs : Invariant nodes s) (hv : s.Keeps v) (hw : s.Keeps w)
    (h : v.expr.unsignedZeros = w.expr.unsignedZeros) : v = w := by
  induction v generalizing w with
  | leaf i c =>
    cases w with
    | leaf j d =>
      simp only [Node.expr, Expr.unsignedZeros, Comparison.unsignedZero, Expr.leaf.injEq,
        Comparison.mk.injEq] at h
      exact hv.eq_of_shape_eq hw (by simp only [Node.shape, Shape.ofComparison, h])
    | join | not => cases h
  | join i o l r ihl ihr =>
    cases w with
    | join j p l' r' =>
      simp only [Node.expr, Expr.unsignedZeros, Expr.join.injEq] at h
      obtain ⟨rfl, hl, hr⟩ := h
      have hpartsv := (hs.of_keeps hv).2
      have hpartsw := (hs.of_keeps hw).2
      simp only [Node.parts, List.forall_mem_cons] at hpartsv hpartsw
      obtain rfl := ihl hpartsv.1 hpartsw.1 hl
      obtain rfl := ihr hpartsv.2.1 hpartsw.2.1 hr
      exact hv.eq_of_shape_eq hw rfl
    | leaf | not => cases h
  | not i n ih =>
    cases w with
    | not j m =>
      simp only [Node.expr, Expr.unsignedZeros, Expr.not.injEq] at h
      have hpartv := (hs.of_keeps hv).2 n (by simp [Node.parts])
      have hpartw := (hs.of_keeps hw).2 m (by simp [Node.parts])
      obtain rfl := ih hpartv hpartw h
      exact hv.eq_of_shape_eq hw rfl
    | leaf | join => cases h

/-- The second table has an entry for each identity that was met. -/
theorem Tally.size_visited (h : Tally met s) {list : List Node} (hlist : ∀ n, n ∈ met ↔ n ∈ list) :
    s.visited.size = (list.map Node.id).toFinset.card := by
  have hkeys : s.visited.keys.toFinset = (list.map Node.id).toFinset := by
    ext id
    simp only [List.mem_toFinset, Std.HashMap.mem_keys, h.visited, hlist, List.mem_map]
  rw [← hkeys, List.toFinset_card_of_nodup Std.HashMap.nodup_keys, Std.HashMap.length_keys]

/-- The first table has an entry for each expression that was met. -/
theorem Tally.unique_eq (h : Tally met s) (hs : Invariant nodes s) (hmet : met ⊆ nodes)
    {list : List Node} (hlist : ∀ n, n ∈ met ↔ n ∈ list) :
    s.unique = (list.map fun n => n.expr.unsignedZeros).toFinset.card := by
  have hentry (shape : Shape) (v : Node) :
      (shape, v) ∈ s.table.toList ↔ s.table[shape]? = some v :=
    Std.HashMap.mem_toList_iff_getElem?_eq_some
  have hnodup : (s.table.toList.map fun entry => entry.2.expr.unsignedZeros).Nodup := by
    apply List.Nodup.map_on
    · rintro ⟨k, v⟩ hk ⟨l, w⟩ hl heq
      rw [hentry] at hk hl
      obtain ⟨rfl, -⟩ := hs.table k v hk
      obtain ⟨rfl, -⟩ := hs.table l w hl
      obtain rfl := hs.eq_of_unsignedZeros_eq hk hl heq
      rfl
    · apply List.Nodup.of_map Prod.fst
      rw [Std.HashMap.map_fst_toList_eq_keys]
      exact Std.HashMap.nodup_keys
  have hsame : (s.table.toList.map fun entry => entry.2.expr.unsignedZeros).toFinset =
      (list.map fun n => n.expr.unsignedZeros).toFinset := by
    ext e
    simp only [List.mem_toFinset, List.mem_map, Prod.exists, hentry, ← hlist]
    constructor
    · rintro ⟨k, v, hk, rfl⟩
      obtain ⟨n, hn, hv⟩ := h.table k v hk
      exact ⟨n, hn, (hs.of_visited (hmet hn) hv).2.symm⟩
    · rintro ⟨n, hn, rfl⟩
      have hid := (h.visited n.id).mpr ⟨n, hn, rfl⟩
      obtain ⟨v, hv⟩ := Option.isSome_iff_exists.mp (Std.HashMap.mem_iff_isSome_getElem?.mp hid)
      obtain ⟨hkeeps, hexpr⟩ := hs.of_visited (hmet hn) hv
      exact ⟨v.shape, v, hkeeps, hexpr⟩
  rw [← hsame, List.toFinset_card_of_nodup hnodup, List.length_map, Std.HashMap.length_toList]
  rfl

/-- Runs of one interner: the nodes that exist, its state, and its calls so far, each with the node
it was given and the one it returned. More nodes may come into being at any time. A call takes any
node that exists, also one that an earlier call returned, and then all that the interner keeps
exists. -/
inductive Run : Set Node → Interner → List (Node × Node) → Prop
  | start {nodes fresh} (h : Node.Arena nodes fresh) : Run nodes { fresh } []
  | grow {nodes larger s calls fresh} (h : Run nodes s calls) (hsub : nodes ⊆ larger)
      (harena : Node.Arena larger fresh) : Run larger { s with fresh } calls
  | intern {nodes s calls n} (h : Run nodes s calls) (hn : n ∈ nodes) :
      Run (nodes ∪ {m | (intern n s).2.Keeps m}) (intern n s).2 (calls ++ [(n, (intern n s).1)])

/-- The nodes that some calls were given, and those below them. -/
def given (calls : List (Node × Node)) : List Node := calls.flatMap fun call => call.1.places

/-- The nodes that some calls returned, and those below them. -/
def returned (calls : List (Node × Node)) : List Node := calls.flatMap fun call => call.2.places

/-- What holds of an interner at any time of a run. -/
structure Run.Sound (nodes : Set Node) (s : Interner) (calls : List (Node × Node)) : Prop where
  invariant : Invariant nodes s
  tally : Tally {n | n ∈ given calls} s
  given : ∀ call ∈ calls, call.1 ∈ nodes
  returned : ∀ call ∈ calls,
    s.Keeps call.2 ∧ call.2.expr.unsignedZeros = call.1.expr.unsignedZeros

variable {calls : List (Node × Node)}

theorem Invariant.grow {larger : Set Node} {fresh : ℕ} (hs : Invariant nodes s)
    (hsub : nodes ⊆ larger) (harena : Node.Arena larger fresh) :
    Invariant larger { s with fresh } := by
  refine ⟨harena, fun shape v hv => ?_, fun id v hv => ?_⟩
  · obtain ⟨hshape, hmem, hparts⟩ := hs.table shape v hv
    exact ⟨hshape, hsub hmem, hparts⟩
  · obtain ⟨hkeeps, n, hn, hid⟩ := hs.visited id v hv
    exact ⟨hkeeps, n, hsub hn, hid⟩

/-- Of an arena only those nodes matter that existed before, the ones that were met among them, and
those that the interner keeps. -/
theorem Invariant.restrict {larger : Set Node} {fresh : ℕ} (hs : Invariant larger s)
    (h : Tally met s) (harena : Node.Arena nodes fresh) (hsub : nodes ⊆ larger)
    (hmet : met ⊆ nodes) : Invariant (nodes ∪ {m | s.Keeps m}) s := by
  have hall : nodes ∪ {m | s.Keeps m} ⊆ larger :=
    Set.union_subset hsub fun m hm => (hs.of_keeps hm).1
  refine ⟨⟨?_, ?_, fun n hn => hs.arena.below n (hall hn)⟩, ?_, ?_⟩
  · rintro n (hn | hn) m hm
    · exact .inl (harena.closed n hn m hm)
    · exact .inr ((hs.of_keeps hn).2 m hm)
  · intro m hm n hn
    exact hs.arena.unique m (hall hm) n (hall hn)
  · intro shape v hv
    obtain ⟨rfl, -, hparts⟩ := hs.table shape v hv
    exact ⟨rfl, .inr hv, hparts⟩
  · intro id v hv
    have hentry : id ∈ s.visited := Std.HashMap.mem_iff_isSome_getElem?.mpr (by simp [hv])
    obtain ⟨n, hn, rfl⟩ := (h.visited id).mp hentry
    obtain ⟨hkeeps, hexpr⟩ := hs.of_visited (hsub (hmet hn)) hv
    exact ⟨hkeeps, n, .inl (hmet hn), rfl, hexpr⟩

theorem Run.Sound.given_subset (h : Run.Sound nodes s calls) :
    {n | n ∈ Interner.given calls} ⊆ nodes := by
  intro m hm
  obtain ⟨call, hcall, hplace⟩ := List.mem_flatMap.mp hm
  exact h.invariant.arena.reach_subset (h.given call hcall) hplace

theorem Run.sound (h : Run nodes s calls) : Run.Sound nodes s calls := by
  induction h with
  | start harena =>
    refine ⟨invariant_empty harena, ?_, by simp, by simp⟩
    simpa [Interner.given] using tally_empty _
  | grow h hsub harena ih =>
    obtain ⟨hinv, htally, hgiven, hreturned⟩ := ih
    exact ⟨hinv.grow hsub harena,
      ⟨htally.closed, htally.visited, htally.table, htally.leaf, htally.count⟩,
      fun call hcall => hsub (hgiven call hcall), hreturned⟩
  | @intern nodes s calls n h hn ih =>
    have hmet := ih.given_subset
    obtain ⟨hinv, htally, hgiven, hreturned⟩ := ih
    obtain ⟨⟨larger, hlarger, hinv'⟩, hkeeps, hexpr, hgrows⟩ := interned_intern n hinv hn
    have htally' := htally.intern n hinv hn hmet
    have hmet' := Set.union_subset hmet (hinv.arena.reach_subset hn)
    refine ⟨hinv'.restrict htally' hinv.arena hlarger hmet', ?_, ?_, ?_⟩
    · have hset : {m | m ∈ Interner.given (calls ++ [(n, (Interner.intern n s).1)])} =
          {m | m ∈ Interner.given calls} ∪ n.reach := by
        ext m
        simp [Interner.given, Node.reach]
      rwa [hset]
    · intro call hcall
      rcases List.mem_append.mp hcall with hcall | hcall
      · exact .inl (hgiven call hcall)
      · obtain rfl := List.mem_singleton.mp hcall
        exact .inl hn
    · intro call hcall
      rcases List.mem_append.mp hcall with hcall | hcall
      · obtain ⟨hk, he⟩ := hreturned call hcall
        exact ⟨hgrows _ hk, he⟩
      · obtain rfl := List.mem_singleton.mp hcall
        exact ⟨hkeeps, hexpr⟩

theorem noNaN_of_mem_places (h : n.expr.NoNaN) : ∀ m ∈ n.places, m.expr.NoNaN := by
  refine Node.forall_places (P := fun n => n.expr.NoNaN) (fun n hn m hm => ?_) h
  cases n with
  | leaf => simp [Node.parts] at hm
  | join i o l r =>
    simp only [Expr.NoNaN, Node.expr, Expr.leaves, List.forall_mem_append] at hn
    simp only [Node.parts, List.mem_cons, List.not_mem_nil, or_false] at hm
    rcases hm with rfl | rfl
    · exact hn.1
    · exact hn.2
  | not i n =>
    obtain rfl := List.mem_singleton.mp hm
    exact hn

/-- Sharing is exact over whole runs of one interner on nodes all of whose literals are numbers,
strings or booleans. Of the nodes below the results any two are the same if and only if their
expressions are equal by value, and each result is equal by value to what was given. The shapes in
the table are as many as the different expressions that were given or lay below what was given,
with both zeros counted as one, and together with the repetitions they are as many as the different
nodes. -/
theorem Run.sharing_exact (h : Run nodes s calls) (hnan : ∀ call ∈ calls, call.1.expr.NoNaN) :
    (∀ v ∈ Interner.returned calls, ∀ w ∈ Interner.returned calls,
      v.id = w.id ↔ v.expr.agrees w.expr = true) ∧
    (∀ call ∈ calls, call.2.expr.agrees call.1.expr = true) ∧
    s.unique = ((calls.flatMap fun call => call.1.expr.subexprs).map
      Expr.unsignedZeros).toFinset.card ∧
    s.unique + s.reused = ((Interner.given calls).map Node.id).toFinset.card := by
  have hsound := h.sound
  have hmet := hsound.given_subset
  obtain ⟨hinv, htally, hgiven, hreturned⟩ := hsound
  have hresult (call) (hcall : call ∈ calls) : call.2.expr.NoNaN :=
    (Expr.noNaN_congr (hreturned call hcall).2).mpr (hnan call hcall)
  have hkept (v) (hv : v ∈ Interner.returned calls) : s.Keeps v ∧ v.expr.NoNaN := by
    obtain ⟨call, hcall, hplace⟩ := List.mem_flatMap.mp hv
    exact ⟨hinv.keeps_of_mem_places (hreturned call hcall).1 v hplace,
      noNaN_of_mem_places (hresult call hcall) v hplace⟩
  refine ⟨?_, ?_, ?_, ?_⟩
  · intro v hv w hw
    obtain ⟨hkeepsv, hnumbers⟩ := hkept v hv
    obtain ⟨hkeepsw, -⟩ := hkept w hw
    rw [Expr.agrees_iff]
    constructor
    · intro hid
      obtain rfl := hinv.arena.unique v (hinv.of_keeps hkeepsv).1 w (hinv.of_keeps hkeepsw).1 hid
      exact ⟨hnumbers, rfl⟩
    · rintro ⟨-, hexpr⟩
      rw [hinv.eq_of_unsignedZeros_eq hkeepsv hkeepsw hexpr]
  · intro call hcall
    exact (Expr.agrees_iff _ _).mpr ⟨hresult call hcall, (hreturned call hcall).2⟩
  · rw [htally.unique_eq hinv hmet fun n => Iff.rfl]
    simp only [Interner.given, List.map_flatMap, ← Node.map_expr_places, List.map_map]
    rfl
  · rw [htally.count, htally.size_visited fun n => Iff.rfl]

open Node in
/-- A node with both zeros is interned, and then the node that this returned, which is a new one. -/
theorem Run.sharing_exact_zeros :
    let root : Node := .join 2 .or zero minus
    let shared : Node := .join 3 .or zero zero
    let first := Interner.intern root { fresh := 3 }
    let second := Interner.intern shared first.2
    let calls := [(root, shared), (shared, second.1)]
    (∃ nodes, Run nodes second.2 calls) ∧ (∀ call ∈ calls, call.1.expr.NoNaN) ∧
      (∀ v ∈ Interner.returned calls, ∀ w ∈ Interner.returned calls,
        v.id = w.id ↔ v.expr.agrees w.expr = true) ∧
      second.1.expr.agrees shared.expr = true ∧
      second.2.unique = 2 ∧ second.2.unique + second.2.reused = 4 := by
  intro root shared first second calls
  have hroot := Node.Arena.zeros.insert (n := root) rfl (by simp [root, Node.parts])
  have hmem := Set.mem_insert root {minus, zero}
  have hfirst : first.1 = shared := by
    simp only [first, shared, root, zero, minus]
    cbv
  have hkeeps := (interned_intern root (invariant_empty hroot) hmem).2.1
  have hrun : ∃ nodes, Run nodes second.2 calls := by
    have hone := Run.intern (.start hroot) hmem
    rw [show (Interner.intern root { fresh := 3 }).1 = shared from hfirst] at hone hkeeps
    exact ⟨_, hone.intern (.inr hkeeps)⟩
  have hnan : ∀ call ∈ calls, call.1.expr.NoNaN := by
    simp only [calls, List.forall_mem_cons, Expr.NoNaN]
    decide
  obtain ⟨nodes, h⟩ := hrun
  obtain ⟨hsame, hequal, hunique, hall⟩ := h.sharing_exact hnan
  refine ⟨⟨nodes, h⟩, hnan, hsame, hequal (shared, second.1) (by simp [calls]), ?_, ?_⟩
  · rw [hunique]
    decide
  · rw [hall]
    decide

end Interner
end Criteria
