import Criteria.Proofs.Nesting

/-! The grammar of rules as a relation between lists of tokens and expressions, without any limit on
nesting or depth. -/
namespace Criteria.Expr

/-- How loosely the parts of a rule hold together, from the whole rule to its atoms. -/
inductive Level where
  | disjunction
  | conjunction
  | negation
  | atom

/-- The tokens of each level and the expression that they spell:

* a disjunction is conjunctions with OR between them,
* a conjunction is negations with AND between them,
* a negation is an atom with or without NOT,
* an atom is an attribute, an operator and a literal, or a disjunction in parentheses.

A chain is grouped to the left, so it is one operand, or a chain, its operator and one operand. -/
inductive Derives : Level → List Token → Expr → Prop
  | single {ts e} (h : Derives .conjunction ts e) : Derives .disjunction ts e
  | or {ts us l r} {t : Token} (left : Derives .disjunction ts l) (ht : t.kind = .connective .or)
      (right : Derives .conjunction us r) : Derives .disjunction (ts ++ t :: us) (.join .or l r)
  | factor {ts e} (h : Derives .negation ts e) : Derives .conjunction ts e
  | and {ts us l r} {t : Token} (left : Derives .conjunction ts l)
      (ht : t.kind = .connective .and) (right : Derives .negation us r) :
      Derives .conjunction (ts ++ t :: us) (.join .and l r)
  | plain {ts e} (h : Derives .atom ts e) : Derives .negation ts e
  | not {ts e} {t : Token} (ht : t.kind = .not) (h : Derives .atom ts e) :
      Derives .negation (t :: ts) (.not e)
  | comparison {n o v : Token} {name operator value} (hn : n.kind = .identifier name)
      (ho : o.kind = .comparison operator) (hv : v.kind = .literal value) :
      Derives .atom [n, o, v] (.leaf ⟨name, operator, value⟩)
  | parenthesised {ts e} {o c : Token} (ho : o.kind = .opening)
      (h : Derives .disjunction ts e) (hc : c.kind = .closing) :
      Derives .atom (o :: (ts ++ [c])) e

namespace Derives

variable {level : Level} {ts : List Token} {e : Expr}

theorem ne_nil (h : Derives level ts e) : ts ≠ [] := by
  induction h with
  | single _ ih | factor _ ih | plain _ ih => exact ih
  | or | and | not | comparison | parenthesised => simp

theorem balanced (h : Derives level ts e) : Token.Balanced ts := by
  induction h with
  | single _ ih | factor _ ih | plain _ ih => exact ih
  | or left ht right ihl ihr | and left ht right ihl ihr =>
    exact ihl.append (.append (.singleton (by simp [ht]) (by simp [ht])) ihr)
  | not ht h ih => exact .append (.singleton (by simp [ht]) (by simp [ht])) ih
  | comparison hn ho hv => exact .of_flat (by simp [hn, ho, hv])
  | parenthesised ho h hc ih => exact .parenthesised ho hc ih

/-- What tokens spell depends on their kinds alone. -/
theorem of_kinds (h : Derives level ts e) {us : List Token}
    (hkinds : us.map Token.kind = ts.map Token.kind) : Derives level us e := by
  induction h generalizing us with
  | single _ ih => exact .single (ih hkinds)
  | factor _ ih => exact .factor (ih hkinds)
  | plain _ ih => exact .plain (ih hkinds)
  | or _ ht _ ihl ihr =>
    rw [List.map_append, List.map_cons] at hkinds
    obtain ⟨ls, rs, rfl, hls, hrs⟩ := List.map_eq_append_iff.mp hkinds
    obtain ⟨u, rs, rfl, hu, hrs⟩ := List.map_eq_cons_iff.mp hrs
    exact .or (ihl hls) (hu.trans ht) (ihr hrs)
  | and _ ht _ ihl ihr =>
    rw [List.map_append, List.map_cons] at hkinds
    obtain ⟨ls, rs, rfl, hls, hrs⟩ := List.map_eq_append_iff.mp hkinds
    obtain ⟨u, rs, rfl, hu, hrs⟩ := List.map_eq_cons_iff.mp hrs
    exact .and (ihl hls) (hu.trans ht) (ihr hrs)
  | not ht _ ih =>
    obtain ⟨u, rs, rfl, hu, hrs⟩ := List.map_eq_cons_iff.mp hkinds
    exact .not (hu.trans ht) (ih hrs)
  | comparison hn ho hv =>
    obtain ⟨n, us, rfl, hn', hkinds⟩ := List.map_eq_cons_iff.mp hkinds
    obtain ⟨o, us, rfl, ho', hkinds⟩ := List.map_eq_cons_iff.mp hkinds
    obtain ⟨v, us, rfl, hv', hkinds⟩ := List.map_eq_cons_iff.mp hkinds
    obtain rfl := List.map_eq_nil_iff.mp hkinds
    exact .comparison (hn'.trans hn) (ho'.trans ho) (hv'.trans hv)
  | parenthesised ho _ hc ih =>
    rw [List.map_cons, List.map_append] at hkinds
    obtain ⟨o, us, rfl, ho', hkinds⟩ := List.map_eq_cons_iff.mp hkinds
    obtain ⟨ts, cs, rfl, hts, hkinds⟩ := List.map_eq_append_iff.mp hkinds
    obtain ⟨c, cs, rfl, hc', hkinds⟩ := List.map_eq_cons_iff.mp hkinds
    obtain rfl := List.map_eq_nil_iff.mp hkinds
    exact .parenthesised (ho'.trans ho) (ih hts) (hc'.trans hc)

end Derives
end Criteria.Expr
