import Criteria.Proofs.Combination
import Criteria.Proofs.Sharing.Exactness
import Mathlib.Data.List.Find

/-! Where nothing is left to share. Sharing gives back a node itself just if no two nodes below it
have one expression, which is so of all that sharing results in. -/
namespace Criteria
namespace Node

variable {nodes : Set Node} {fresh : ℕ} {n root : Node} {result : Node × ℕ}

/-- All places of one expression, the signs of zeros apart, hold one node. -/
def Shared (n : Node) : Prop :=
  ∀ v ∈ n.places, ∀ w ∈ n.places, v.expr.unsignedZeros = w.expr.unsignedZeros → v = w

theorem Arena.shared_iff (h : Arena nodes fresh) (hn : n ∈ nodes) (hnan : n.expr.NoNaN) :
    n.Shared ↔
      ∀ v ∈ n.places, ∀ w ∈ n.places, v.expr.agrees w.expr = true → v.id = w.id := by
  have hmem := h.reach_subset hn
  constructor
  · intro hshared v hv w hw hagrees
    rw [hshared v hv w hw ((Expr.agrees_iff _ _).mp hagrees).2]
  · intro hids v hv w hw hexpr
    have hnumbers := Interner.noNaN_of_mem_places hnan v hv
    have hid := hids v hv w hw ((Expr.agrees_iff _ _).mpr ⟨hnumbers, hexpr⟩)
    exact h.unique v (hmem hv) w (hmem hw) hid

theorem count_eq_card (n : Node) : n.count = (n.places.map id).toFinset.card := by
  have hnodup : (Std.HashSet.ofList (n.places.map id)).toList.Nodup :=
    Std.HashSet.distinct_toList.imp fun h => by simpa using h
  have hsame : (Std.HashSet.ofList (n.places.map id)).toList.toFinset =
      (n.places.map id).toFinset := by
    ext i
    simp
  rw [count, ← Std.HashSet.length_toList, ← hsame, List.toFinset_card_of_nodup hnodup]

/-- A node with nothing left to share holds as many nodes as expressions. -/
theorem Arena.count_eq (h : Arena nodes fresh) (hn : n ∈ nodes) (hshared : n.Shared) :
    n.count = (n.expr.subexprs.map Expr.unsignedZeros).toFinset.card := by
  have himage {β : Type} [DecidableEq β] (f : Node → β) :
      (n.places.map f).toFinset = n.places.toFinset.image f := by
    ext
    simp
  have hids : Set.InjOn id n.places.toFinset := by
    intro v hv w hw hid
    rw [List.coe_toFinset] at hv hw
    exact h.unique v (h.reach_subset hn hv) w (h.reach_subset hn hw) hid
  have hexprs : Set.InjOn (fun v : Node => v.expr.unsignedZeros) n.places.toFinset := by
    intro v hv w hw hexpr
    rw [List.coe_toFinset] at hv hw
    exact hshared v hv w hw hexpr
  rw [count_eq_card, ← map_expr_places, List.map_map, himage, himage,
    Finset.card_image_of_injOn hids]
  exact (Finset.card_image_of_injOn hexprs).symm

end Node

namespace Interner

variable {nodes all : Set Node} {s : Interner} {n v : Node} {calls : List (Node × Node)}

/-- A representative holds nothing but representatives, one for each expression. -/
theorem Invariant.shared (hs : Invariant nodes s) (hv : s.Keeps v) : v.Shared := fun a ha b hb h =>
  hs.eq_of_unsignedZeros_eq (hs.keeps_of_mem_places hv a ha) (hs.keeps_of_mem_places hv b hb) h

theorem Invariant.keeps_represent (hs : Invariant nodes s) (h : ∀ v, s.Keeps v → v ∈ all) {id : ℕ}
    {shape : Shape} {build : ℕ → Node × ℕ} (hbuild : (build s.fresh).1 ∈ all) :
    ∀ v, (s.represent id shape build).2.Keeps v → v ∈ all := by
  intro v hv
  rw [Keeps, getElem?_table_represent] at hv
  split at hv
  · rename_i hshape
    obtain rfl := Option.some.inj hv
    cases hknown : s.table[shape]? with
    | some known =>
      simp only [represent, hknown]
      exact h known (by rw [Keeps, (hs.table shape known hknown).1, hknown])
    | none => simpa only [represent, hknown] using hbuild
  · exact h v hv

/-- What interning a node of different expressions results in, if nothing else is kept. -/
theorem Invariant.intern_eq_of_keeps (hs : Invariant nodes s) (hn : n ∈ nodes) (hall : n ∈ all)
    (hinj : ∀ v ∈ all, ∀ w ∈ all, v.expr.unsignedZeros = w.expr.unsignedZeros → v = w)
    (h : ∀ v, (intern n s).2.Keeps v → v ∈ all) : (intern n s).1 = n := by
  obtain ⟨-, hkeeps, hexpr, -⟩ := interned_intern n hs hn
  exact hinj _ (h _ hkeeps) n hall hexpr

/-- Among nodes of different expressions each is its own representative, so none is built again. -/
theorem keeps_intern (hclosed : ∀ n ∈ all, ∀ m ∈ n.parts, m ∈ all)
    (hinj : ∀ v ∈ all, ∀ w ∈ all, v.expr.unsignedZeros = w.expr.unsignedZeros → v = w) (n : Node)
    (hs : Invariant nodes s) (hsub : all ⊆ nodes) (hn : n ∈ all) (h : ∀ v, s.Keeps v → v ∈ all) :
    ∀ v, (intern n s).2.Keeps v → v ∈ all := by
  induction n generalizing nodes s with
  | leaf id c =>
    rw [intern]
    split
    · exact h
    · exact hs.keeps_represent h hn
  | join id o left right ihl ihr =>
    rw [intern]
    split
    · exact h
    · obtain ⟨hleft, hright⟩ : left ∈ all ∧ right ∈ all := by
        simpa [Node.parts] using hclosed _ hn
      obtain ⟨⟨ls, hls, hinvl⟩, -⟩ := interned_intern left hs (hsub hleft)
      obtain ⟨⟨rs, hrs, hinvr⟩, -⟩ := interned_intern right hinvl (hls (hsub hright))
      have hl := ihl hs hsub hleft h
      have hr := ihr hinvl (hsub.trans hls) hright hl
      refine hinvr.keeps_represent hr ?_
      rw [hs.intern_eq_of_keeps (hsub hleft) hleft hinj hl,
        hinvl.intern_eq_of_keeps (hls (hsub hright)) hright hinj hr]
      simpa using hn
  | not id operand ih =>
    rw [intern]
    split
    · exact h
    · have hoperand : operand ∈ all := by simpa [Node.parts] using hclosed _ hn
      obtain ⟨⟨larger, hlarger, hinv⟩, -⟩ := interned_intern operand hs (hsub hoperand)
      have ho := ih hs hsub hoperand h
      refine hinv.keeps_represent ho ?_
      rw [hs.intern_eq_of_keeps (hsub hoperand) hoperand hinj ho]
      simpa using hn

theorem Run.firsts (h : Run nodes s calls) :
    Firsts (calls.flatMap fun call => call.1.leaves) s := by
  induction h with
  | start => exact firsts_empty _
  | grow h hsub harena ih => exact ih
  | @intern nodes s calls n h hn ih =>
    rw [List.flatMap_append, List.flatMap_singleton]
    exact firsts_intern n h.sound.invariant hn ih

/-- The results of all calls hold, at each place of a leaf, the first one that any call met. -/
theorem Run.leaves_eq (h : Run nodes s calls) {call : Node × Node} (hcall : call ∈ calls) :
    call.2.leaves.map some = call.1.leaves.map fun leaf =>
      Node.firstLeaf? (calls.flatMap fun call => call.1.leaves) leaf.2 := by
  obtain ⟨hinv, -, -, hreturned⟩ := h.sound
  obtain ⟨hkeeps, hexpr⟩ := hreturned call hcall
  exact h.firsts.leaves_eq hinv hkeeps hexpr

end Interner

namespace Node

variable {nodes : Set Node} {fresh : ℕ} {root : Node} {result : Node × ℕ}

theorem Arena.shared_deduplicate (h : Arena nodes fresh) (hroot : root ∈ nodes) :
    (root.deduplicate fresh).1.Shared := by
  obtain ⟨⟨larger, -, hinv⟩, hkeeps, -⟩ :=
    Interner.interned_intern root (Interner.invariant_empty h) hroot
  exact hinv.shared hkeeps

/-- Sharing gives back a node itself if nothing below it can be shared, and only then. -/
theorem Arena.deduplicate_eq_self_iff (h : Arena nodes fresh) (hroot : root ∈ nodes) :
    (root.deduplicate fresh).1 = root ↔ root.Shared := by
  constructor
  · intro heq
    exact heq ▸ h.shared_deduplicate hroot
  · intro hshared
    have hempty := Interner.invariant_empty h
    have hkept := Interner.keeps_intern (fun _ hn _ hm => mem_reach_of_mem_parts hn hm) hshared
      root hempty (h.reach_subset hroot) root.mem_reach_self (by simp [Interner.Keeps])
    exact hempty.intern_eq_of_keeps hroot root.mem_reach_self hshared hkept

/-- So sharing once more, at any later time, changes nothing. -/
theorem Extends.deduplicate_eq_self (h : Extends nodes result) (hshared : result.1.Shared)
    {later : ℕ} (hlater : result.2 ≤ later) : (result.1.deduplicate later).1 = result.1 := by
  obtain ⟨larger, -, harena, hmem⟩ := h
  exact ((harena.mono hlater).deduplicate_eq_self_iff hmem).mpr hshared

theorem Arena.firstLeaves_deduplicate (h : Arena nodes fresh) (hroot : root ∈ nodes) :
    (root.deduplicate fresh).1.leaves.map some =
      root.leaves.map fun leaf => firstLeaf? root.leaves leaf.2 := by
  have hrun := Interner.Run.intern (.start h) hroot
  have hleaves := hrun.leaves_eq (List.mem_singleton_self _)
  rwa [List.nil_append, List.flatMap_singleton] at hleaves

theorem leaves_chain (o : Connective) (first : Node) (rest : List Node) (fresh : ℕ) :
    (chain o first rest fresh).1.leaves = (first :: rest).flatMap leaves := by
  induction rest generalizing first fresh with
  | nil => simp [chain]
  | cons n rest ih =>
    refine (ih (.join fresh o first n) (fresh + 1)).trans ?_
    simp [leaves]

theorem noNaN_expr_iff (n : Node) :
    n.expr.NoNaN ↔ ∀ leaf ∈ n.leaves, leaf.2.value.isNaN = false := by
  rw [Expr.NoNaN, leaves_expr, List.forall_mem_map]

/-- The first leaf of a list whose comparison is equal by value. -/
def agreeingLeaf? (source : List (ℕ × Comparison)) (c : Comparison) : Option (ℕ × Comparison) :=
  source.find? fun leaf => (Expr.leaf leaf.2).agrees (.leaf c)

theorem agreeingLeaf?_eq {source : List (ℕ × Comparison)}
    (h : ∀ leaf ∈ source, leaf.2.value.isNaN = false) (c : Comparison) :
    agreeingLeaf? source c = firstLeaf? source c := by
  refine List.find?_congr fun leaf hleaf => ?_
  rw [Bool.eq_iff_iff, Expr.agrees_iff, decide_eq_true_iff, Expr.unsignedZeros, Expr.unsignedZeros,
    Expr.leaf.injEq]
  exact and_iff_right (by simpa [Expr.NoNaN, Expr.leaves] using h leaf hleaf)

/-- What sharing makes of some leaves. It is a node that holds, at each place of a leaf, the first
one that is equal by value, and that sharing gives back itself from then on. -/
structure Settled (source : List (ℕ × Comparison)) (result : Node × ℕ) : Prop where
  leaves : result.1.leaves.map some = source.map fun leaf => agreeingLeaf? source leaf.2
  again : ∀ later, result.2 ≤ later → (result.1.deduplicate later).1 = result.1

theorem Arena.settled_deduplicate (h : Arena nodes fresh) (hroot : root ∈ nodes)
    (hnan : root.expr.NoNaN) : Settled root.leaves (root.deduplicate fresh) := by
  refine ⟨?_, fun later => (h.deduplicate hroot).1.deduplicate_eq_self (h.shared_deduplicate hroot)⟩
  simp only [agreeingLeaf?_eq (root.noNaN_expr_iff.mp hnan)]
  exact h.firstLeaves_deduplicate hroot

/-- Rules are combined by sharing the equal parts of one node, their chain. -/
theorem Arena.exists_deduplicate (h : Arena nodes fresh) {rules : List Node} {s : Strategy}
    (hrules : ∀ n ∈ rules, n ∈ nodes) (hresult : combine rules s true fresh = .ok result) :
    ∃ larger later joined, Arena larger later ∧ joined ∈ larger ∧
      joined.leaves = rules.flatMap Node.leaves ∧ result = joined.deduplicate later := by
  obtain ⟨first, second, rest, rfl, -, rfl⟩ := combine_eq_ok hresult
  rw [List.forall_mem_cons] at hrules
  obtain ⟨larger, -, harena, hjoined⟩ := h.extends_chain s.connective hrules.1 hrules.2
  exact ⟨larger, _, _, harena, hjoined, leaves_chain .., rfl⟩

theorem Arena.settled_combine (h : Arena nodes fresh) {rules : List Node} {s : Strategy}
    (hrules : ∀ n ∈ rules, n ∈ nodes ∧ n.expr.NoNaN)
    (hresult : combine rules s true fresh = .ok result) :
    Settled (rules.flatMap Node.leaves) result := by
  obtain ⟨larger, later, joined, harena, hjoined, hleaves, rfl⟩ :=
    h.exists_deduplicate (fun n hn => (hrules n hn).1) hresult
  rw [← hleaves]
  refine harena.settled_deduplicate hjoined ?_
  rw [noNaN_expr_iff, hleaves, List.forall_mem_flatMap]
  exact fun n hn => n.noNaN_expr_iff.mp (hrules n hn).2

theorem Arena.count_combine (h : Arena nodes fresh) {rules : List Node} {s : Strategy}
    (hrules : ∀ n ∈ rules, n ∈ nodes) (hresult : combine rules s true fresh = .ok result) :
    result.1.count = (result.1.expr.subexprs.map Expr.unsignedZeros).toFinset.card := by
  obtain ⟨larger, later, joined, harena, hjoined, -, rfl⟩ := h.exists_deduplicate hrules hresult
  obtain ⟨all, -, hall, hmem⟩ := (harena.deduplicate hjoined).1
  exact hall.count_eq hmem (harena.shared_deduplicate hjoined)

/-- Sharing gives back the very node it was given just if no two nodes below it are equal by value.
What it results in, by itself or where rules are combined, it gives back itself from then on, with
the first of all equal leaves at their places. So do all results of one interner hold the first of
all leaves that it was given. -/
theorem sharing_stable (h : Arena nodes fresh) :
    (∀ root ∈ nodes, root.expr.NoNaN →
      ((root.deduplicate fresh).1.id = root.id ↔
        ∀ v ∈ root.places, ∀ w ∈ root.places, v.expr.agrees w.expr = true → v.id = w.id) ∧
      Settled root.leaves (root.deduplicate fresh)) ∧
    (∀ rules s result, (∀ n ∈ rules, n ∈ nodes ∧ n.expr.NoNaN) →
      combine rules s true fresh = .ok result → Settled (rules.flatMap leaves) result) ∧
    ∀ kept s calls, Interner.Run kept s calls → (∀ call ∈ calls, call.1.expr.NoNaN) →
      ∀ call ∈ calls, call.2.leaves.map some = call.1.leaves.map fun leaf =>
        agreeingLeaf? (calls.flatMap fun call => call.1.leaves) leaf.2 := by
  refine ⟨fun root hroot hnan => ⟨?_, h.settled_deduplicate hroot hnan⟩,
    fun rules s result => h.settled_combine, fun kept s calls hrun hnan call hcall => ?_⟩
  · rw [← h.shared_iff hroot hnan, ← h.deduplicate_eq_self_iff hroot]
    refine ⟨fun hid => ?_, congrArg id⟩
    obtain ⟨larger, hlarger, harena, hmem⟩ := (h.deduplicate hroot).1
    exact harena.unique _ hmem root (hlarger hroot) hid
  · have hnumbers : ∀ leaf ∈ calls.flatMap fun call => call.1.leaves,
        leaf.2.value.isNaN = false := by
      rw [List.forall_mem_flatMap]
      exact fun call hcall => call.1.noNaN_expr_iff.mp (hnan call hcall)
    simp only [agreeingLeaf?_eq hnumbers]
    exact hrun.leaves_eq hcall

/-- Two leaves with the two zeros, of which the one that is met first stands for both. -/
theorem sharing_stable_zeros :
    let negated : Node := .not 2 minus
    let same : Node := .join 3 .and zero negated
    let different : Node := .join 4 .or minus negated
    ((different.deduplicate 5).1.id = 4 ∧ (same.deduplicate 5).1.id ≠ 3 ∧
      Settled same.leaves (same.deduplicate 5)) ∧
    (∃ result, combine [different, same] .any true 5 = .ok result ∧
      Settled (different.leaves ++ same.leaves) result) ∧
    ∃ kept s shared shared', Interner.Run kept s [(same, shared), (different, shared')] ∧
      shared'.leaves.map some = different.leaves.map fun leaf =>
        agreeingLeaf? (same.leaves ++ different.leaves) leaf.2 := by
  intro negated same different
  have hnegated := Arena.zeros.insert (n := negated) rfl (by simp [negated, parts])
  have hjoin := hnegated.insert (n := same) rfl (by simp [same, parts])
  have h : Arena {different, same, negated, minus, zero} 5 :=
    hjoin.insert (n := different) rfl (by simp [different, parts])
  have hsame : same.expr.NoNaN := by
    rw [Expr.NoNaN]
    decide
  have hdifferent : different.expr.NoNaN := by
    rw [Expr.NoNaN]
    decide
  obtain ⟨hone, hcombine, hrun⟩ := sharing_stable h
  obtain ⟨hfirst, -⟩ := hone different (by simp) hdifferent
  obtain ⟨hsecond, hsettled⟩ := hone same (by simp) hsame
  refine ⟨⟨hfirst.mpr (by decide), fun hid => ?_, hsettled⟩, ?_, ?_⟩
  · have hids := hsecond.mp hid zero (by decide) minus (by decide) (by decide)
    cases hids
  · have hdepth : (Expr.chain .or different.expr [same.expr]).depth ≤ Expr.maxDepth := by
      rw [Expr.depth_eq_height]
      decide
    obtain ⟨result, hresult⟩ : ∃ result, combine [different, same] .any true 5 = .ok result :=
      exists_combine true 5 hdepth
    have hrules : ∀ n ∈ [different, same],
        n ∈ ({different, same, negated, minus, zero} : Set Node) ∧ n.expr.NoNaN := by
      simp [hsame, hdifferent]
    exact ⟨result, hresult, by simpa using hcombine _ .any result hrules hresult⟩
  · have hcalls := (Interner.Run.intern (n := same) (.start h) (by simp)).intern (n := different)
      (.inl (by simp))
    have hnan : ∀ call ∈ [(same, (Interner.intern same { fresh := 5 }).1), (different,
        (Interner.intern different (Interner.intern same { fresh := 5 }).2).1)],
        call.1.expr.NoNaN := by
      simp [hsame, hdifferent]
    have hlast := hrun _ _ _ hcalls hnan _ (List.mem_cons_of_mem _ (List.mem_singleton_self _))
    exact ⟨_, _, _, _, hcalls, by simpa using hlast⟩

end Node
end Criteria
