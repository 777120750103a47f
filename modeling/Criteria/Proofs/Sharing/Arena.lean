import Criteria.Combination
import Mathlib.Data.Set.Insert

/-! Arenas: the nodes that exist at some time. In an arena no two nodes have one identity, and those
from some number on are still to be given out, so whatever is built next joins the arena. -/
namespace Criteria
namespace Node

/-- The nodes right below a node. -/
def parts : Node → List Node
  | leaf _ _ => []
  | join _ _ l r => [l, r]
  | not _ n => [n]

/-- A set of nodes with their parts, all of different identities below `fresh`. -/
structure Arena (nodes : Set Node) (fresh : ℕ) : Prop where
  closed : ∀ n ∈ nodes, ∀ m ∈ n.parts, m ∈ nodes
  unique : ∀ m ∈ nodes, ∀ n ∈ nodes, m.id = n.id → m = n
  below : ∀ n ∈ nodes, n.id < fresh

/-- A leaf with a zero. -/
def zero : Node := .leaf 0 ⟨"a", .less, .number ⟨0⟩⟩

/-- The leaf that differs from this one in the sign of the zero. -/
def minus : Node := .leaf 1 ⟨"a", .less, .number ⟨0x8000000000000000⟩⟩

/-- The result, a node and the next identity, belongs to an arena with all the given nodes. -/
def Extends (nodes : Set Node) (result : Node × ℕ) : Prop :=
  ∃ larger, nodes ⊆ larger ∧ Arena larger result.2 ∧ result.1 ∈ larger

namespace Arena

variable {nodes : Set Node} {fresh : ℕ} {n : Node}

theorem empty (fresh : ℕ) : Arena ∅ fresh :=
  ⟨by simp, by simp, by simp⟩

theorem mono {later : ℕ} (h : Arena nodes fresh) (hle : fresh ≤ later) : Arena nodes later :=
  ⟨h.closed, h.unique, fun n hn => (h.below n hn).trans_le hle⟩

theorem parts_join {id : ℕ} {o : Connective} {l r : Node} (h : Arena nodes fresh)
    (hn : join id o l r ∈ nodes) : l ∈ nodes ∧ r ∈ nodes := by
  simpa [parts] using h.closed _ hn

theorem part_not {id : ℕ} (h : Arena nodes fresh) (hn : not id n ∈ nodes) : n ∈ nodes := by
  simpa [parts] using h.closed _ hn

/-- A node of the next identity joins the arena of its parts. -/
theorem insert (h : Arena nodes fresh) (hid : n.id = fresh) (hn : ∀ m ∈ n.parts, m ∈ nodes) :
    Arena (insert n nodes) (fresh + 1) := by
  refine ⟨?_, ?_, ?_⟩
  · rintro m (rfl | hm) k hk
    · exact .inr (hn k hk)
    · exact .inr (h.closed m hm k hk)
  · rintro m (rfl | hm) k (rfl | hk) hmk
    · rfl
    · have hlt := h.below k hk
      omega
    · have hlt := h.below m hm
      omega
    · exact h.unique m hm k hk hmk
  · rintro m (rfl | hm)
    · omega
    · have hlt := h.below m hm
      omega

theorem leaf (c : Comparison) : Arena {.leaf 0 c} 1 := by
  simpa using (empty 0).insert (n := .leaf 0 c) rfl (by simp [parts])

theorem leaves (c d : Comparison) : Arena {.leaf 1 d, .leaf 0 c} 2 :=
  (leaf c).insert rfl (by simp [parts])

theorem zeros : Arena {minus, zero} 2 := leaves ..

theorem extends_of_mem (h : Arena nodes fresh) (hn : n ∈ nodes) : Extends nodes (n, fresh) :=
  ⟨nodes, subset_rfl, h, hn⟩

theorem extends_insert (h : Arena nodes fresh) (hid : n.id = fresh)
    (hn : ∀ m ∈ n.parts, m ∈ nodes) : Extends nodes (n, fresh + 1) :=
  ⟨_, Set.subset_insert n nodes, h.insert hid hn, Set.mem_insert n nodes⟩

/-- The new nodes of an expression. -/
theorem extends_ofExpr (h : Arena nodes fresh) (e : Expr) : Extends nodes (ofExpr e fresh) := by
  induction e generalizing nodes fresh with
  | leaf c => exact h.extends_insert rfl (by simp [parts])
  | join o l r ihl ihr =>
    obtain ⟨ls, hls, hl, hmeml⟩ := ihl h
    obtain ⟨rs, hrs, hr, hmemr⟩ := ihr hl
    obtain ⟨larger, hlarger, harena, hmem⟩ := hr.extends_insert
      (n := join (ofExpr r (ofExpr l fresh).2).2 o (ofExpr l fresh).1
        (ofExpr r (ofExpr l fresh).2).1) rfl (by simp [parts, hrs hmeml, hmemr])
    exact ⟨larger, hls.trans (hrs.trans hlarger), harena, hmem⟩
  | not e ih =>
    obtain ⟨ns, hns, hn, hmemn⟩ := ih h
    obtain ⟨larger, hlarger, harena, hmem⟩ := hn.extends_insert
      (n := not (ofExpr e fresh).2 (ofExpr e fresh).1) rfl (by simp [parts, hmemn])
    exact ⟨larger, hns.trans hlarger, harena, hmem⟩

/-- The joins of a chain. -/
theorem extends_chain (h : Arena nodes fresh) (o : Connective) {first : Node} {rest : List Node}
    (hfirst : first ∈ nodes) (hrest : ∀ n ∈ rest, n ∈ nodes) :
    Extends nodes (chain o first rest fresh) := by
  induction rest generalizing nodes first fresh with
  | nil => exact h.extends_of_mem hfirst
  | cons n rest ih =>
    rw [List.forall_mem_cons] at hrest
    obtain ⟨next, hnext, harena, hmem⟩ := h.extends_insert (n := join fresh o first n) rfl
      (by simp [parts, hfirst, hrest.1])
    obtain ⟨larger, hlarger, hresult⟩ := ih harena hmem fun m hm => hnext (hrest.2 m hm)
    exact ⟨larger, hnext.trans hlarger, hresult⟩

end Arena
end Node
end Criteria
