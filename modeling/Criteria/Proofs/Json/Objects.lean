import Criteria.Json.Reader
import Criteria.Proofs.Json.Tokens
import Criteria.Record
import Mathlib.Data.List.Forall2

/-! Objects of scalars. A record is read from the tokens of such an object and from no others. The
reader takes all documents, so each of its states is related to the tokens that would still make an
object of scalars of what was read. -/
namespace Criteria

namespace Json.Token

/-- The token of a scalar. A number has to be finite. -/
inductive Stands : Token → Scalar → Prop
  | boolean (b : Bool) : Stands (value (.boolean b)) (.boolean b)
  | number {n : Numeral} (h : n.value.isFinite = true) :
      Stands (value (.number n)) (.number n.value)
  | string (s : String) : Stands (string (some s)) (.string s)

/-- The tokens of one or more members and of the brace behind them. -/
inductive Members : List Token → List (String × Scalar) → Prop
  | last {name t s} (h : Stands t s) :
      Members [string (some name), colon, t, closeObject] [(name, s)]
  | more {name t s ts entries} (h : Stands t s) (hrest : Members ts entries) :
      Members (string (some name) :: colon :: t :: comma :: ts) ((name, s) :: entries)

/-- The tokens of an object of scalars. -/
inductive Object : List Token → List (String × Scalar) → Prop
  | empty : Object [openObject, closeObject] []
  | members {ts entries} (h : Members ts entries) : Object (openObject :: ts) entries

/-- The values that are one token. -/
inductive Atom : Json → Prop
  | null : Atom .null
  | boolean (b : Bool) : Atom (.boolean b)
  | number {n : Numeral} (h : n.value.isFinite = true) : Atom (.number n)
  | meaningless : Atom .meaningless

variable {cs chars rest : List Char} {t : Token} {ts : List Token} {v : Json} {s : Scalar}

theorem Spelled.atom (h : Spelled chars t rest) (ht : t = value v) : Atom v := by
  cases h with
  | word h =>
    subst ht
    simp only [words, List.mem_cons, Prod.mk.injEq, reduceCtorEq, and_false, value.injEq,
      List.not_mem_nil, false_or, or_false] at h
    rcases h with ⟨-, rfl⟩ | ⟨-, rfl⟩ | ⟨-, rfl⟩
    · exact .null
    · exact .boolean true
    · exact .boolean false
  | string | broken => cases ht
  | number h hrest =>
    cases ht
    split
    · rename_i hfinite
      exact .number hfinite
    · exact .meaningless

theorem Laid.atom (h : Laid cs ts) (hv : value v ∈ ts) : Atom v := by
  induction h with
  | nil => cases hv
  | space _ _ ih => exact ih hv
  | token ht _ ih =>
    rcases List.mem_cons.mp hv with hv | hv
    · exact ht.atom hv.symm
    · exact ih hv

theorem Atom.stands (h : Atom v) (hs : Scalar.ofJson? v = some s) : Stands (value v) s := by
  cases h with
  | null | meaningless => cases hs
  | boolean b =>
    cases hs
    exact .boolean b
  | number h =>
    cases hs
    exact .number h

theorem Atom.ofJson? (h : Atom v) : Record.ofJson? v = none := by
  cases h <;> rfl

end Json.Token

namespace Record

/-- A member of a document that holds a member of a record. -/
def Entry (member : String × Json) (entry : String × Scalar) : Prop :=
  member.1 = entry.1 ∧ Scalar.ofJson? member.2 = some entry.2

variable {members : List (String × Json)} {entries : List (String × Scalar)} {r : Record}

lemma mapM_eq_some_iff : (members.mapM fun m => (Scalar.ofJson? m.2).map (m.1, ·)) = some entries ↔
    List.Forall₂ Entry members entries := by
  induction members generalizing entries with
  | nil => cases entries <;> simp
  | cons m members ih =>
    simp only [List.mapM_cons, Option.bind_eq_bind, Option.bind_eq_some_iff, Option.map_eq_some_iff,
      pure, Option.some.injEq]
    constructor
    · rintro ⟨_, ⟨s, hs, rfl⟩, entries, hentries, rfl⟩
      exact .cons ⟨rfl, hs⟩ (ih.mp hentries)
    · rintro (_ | @⟨_, ⟨name, s⟩, _, entries, ⟨rfl, hs⟩, hentries⟩)
      exact ⟨_, ⟨s, hs, rfl⟩, entries, ih.mpr hentries, rfl⟩

/-- An object is read as a record if all its members hold scalars. -/
theorem ofJson?_object_eq_some_iff : ofJson? (.object members) = some r ↔
    ∃ entries, List.Forall₂ Entry members entries ∧ r = ofList entries := by
  simp only [ofJson?, Option.bind_eq_bind, Option.bind_eq_some_iff, mapM_eq_some_iff, pure,
    Option.some.injEq, @eq_comm _ r]

end Record

namespace Json.Reader

open Json.Token (Stands Members Object Atom)

/-- The steps of the reader. -/
inductive Steps : State → Token → State → Prop
  | value {outer empty v} : Steps ⟨outer, .value empty⟩ (.value v) ⟨outer, .complete v⟩
  | string {outer empty text} :
      Steps ⟨outer, .value empty⟩ (.string (some text)) ⟨outer, .complete (string text)⟩
  | broken {outer empty} : Steps ⟨outer, .value empty⟩ (.string none) ⟨outer, .complete meaningless⟩
  | openArray {outer empty} :
      Steps ⟨outer, .value empty⟩ .openArray ⟨.array [] :: outer, .value true⟩
  | openObject {outer empty} :
      Steps ⟨outer, .value empty⟩ .openObject ⟨outer, .name (some []) true⟩
  | emptyArray {outer items} : Steps ⟨.array items :: outer, .value true⟩ .closeArray
      ⟨outer, .complete (array items.reverse)⟩
  | name {outer members empty name} :
      Steps ⟨outer, .name members empty⟩ (.string name) ⟨outer, .colon members name⟩
  | emptyObject {outer members} :
      Steps ⟨outer, .name members true⟩ .closeObject ⟨outer, .complete (closed members)⟩
  | colon {outer members name} :
      Steps ⟨outer, .colon members name⟩ .colon ⟨.object members name :: outer, .value false⟩
  | item {outer items v} : Steps ⟨.array items :: outer, .complete v⟩ .comma
      ⟨.array (v :: items) :: outer, .value false⟩
  | member {outer members name v} : Steps ⟨.object members name :: outer, .complete v⟩ .comma
      ⟨outer, .name (member members name v) false⟩
  | closeArray {outer items v} : Steps ⟨.array items :: outer, .complete v⟩ .closeArray
      ⟨outer, .complete (array (v :: items).reverse)⟩
  | closeObject {outer members name v} :
      Steps ⟨.object members name :: outer, .complete v⟩ .closeObject
        ⟨outer, .complete (closed (member members name v))⟩

theorem step?_eq_some_iff {s s' : State} {t : Token} : s.step? t = some s' ↔ Steps s t s' := by
  constructor
  · intro h
    obtain ⟨outer, stage⟩ := s
    unfold State.step? at h
    dsimp only at h
    split at h
    case h_6 | h_10 | h_11 | h_12 => split at h <;> cases h <;> constructor
    all_goals cases h <;> constructor
  · intro h
    cases h <;> rfl

/-- The tokens that make an object of scalars of what has been read. -/
inductive Remains : State → List Token → Prop
  | start {empty ts entries} (h : Object ts entries) : Remains ⟨[], .value empty⟩ ts
  | empty {done read} (hdone : List.Forall₂ Record.Entry done read) :
      Remains ⟨[], .name (some done) true⟩ [.closeObject]
  | name {done read empty ts entries} (hdone : List.Forall₂ Record.Entry done read)
      (h : Members ts entries) : Remains ⟨[], .name (some done) empty⟩ ts
  | colon {done read name ts entries} (hdone : List.Forall₂ Record.Entry done read)
      (h : Members (.string (some name) :: ts) entries) :
      Remains ⟨[], .colon (some done) (some name)⟩ ts
  | value {done read name empty ts entries} (hdone : List.Forall₂ Record.Entry done read)
      (h : Members (.string (some name) :: .colon :: ts) entries) :
      Remains ⟨[.object (some done) (some name)], .value empty⟩ ts
  | last {done read name v scalar} (hdone : List.Forall₂ Record.Entry done read)
      (hv : Scalar.ofJson? v = some scalar) :
      Remains ⟨[.object (some done) (some name)], .complete v⟩ [.closeObject]
  | more {done read name v scalar ts entries} (hdone : List.Forall₂ Record.Entry done read)
      (hv : Scalar.ofJson? v = some scalar) (h : Members ts entries) :
      Remains ⟨[.object (some done) (some name)], .complete v⟩ (.comma :: ts)
  | complete {v r} (h : Record.ofJson? v = some r) : Remains ⟨[], .complete v⟩ []

variable {s s' : State} {t : Token} {ts : List Token} {v : Json} {r : Record}
  {done : List (String × Json)} {entries : List (String × Scalar)}

/-- What has been read of a record is an object of scalars. -/
lemma exists_of_closed {members : Option (List (String × Json))}
    (h : Record.ofJson? (closed members) = some r) :
    ∃ done read, members = some done ∧ List.Forall₂ Record.Entry done read := by
  cases members with
  | none => cases h
  | some done =>
    obtain ⟨entries, hentries, -⟩ := Record.ofJson?_object_eq_some_iff.mp h
    refine ⟨done, entries.reverse, rfl, ?_⟩
    rwa [← List.forall₂_reverse_iff, List.reverse_reverse]

lemma member_eq_some_iff {members : Option (List (String × Json))} {name : Option String} :
    member members name v = some done ↔
      ∃ before text, members = some before ∧ name = some text ∧ done = (text, v) :: before := by
  cases members <;> cases name <;> simp [member, eq_comm]

/-- A closed object is no scalar. -/
lemma ofJson?_closed (members : Option (List (String × Json))) :
    Scalar.ofJson? (closed members) = none := by
  cases members <;> rfl

/-- A step can be taken back: what was left behind it is left in front of it, with its token. -/
theorem Steps.remains (h : Steps s t s') (hatom : ∀ v, t = .value v → Atom v)
    (hrest : Remains s' ts) : Remains s (t :: ts) := by
  cases h with
  | @value outer empty v =>
    have hv := hatom v rfl
    cases hrest with
    | last hdone hs => exact .value hdone (.last (hv.stands hs))
    | more hdone hs h => exact .value hdone (.more (hv.stands hs) h)
    | complete h =>
      rw [hv.ofJson?] at h
      cases h
  | @string outer empty text =>
    cases hrest with
    | last hdone => exact .value hdone (.last (.string text))
    | more hdone _ h => exact .value hdone (.more (.string text) h)
    | complete h => cases h
  | broken | emptyArray | closeArray =>
    cases hrest with
    | last _ hs | more _ hs => cases hs
    | complete h => cases h
  | openArray | item => cases hrest
  | openObject =>
    cases hrest with
    | empty => exact .start .empty
    | name _ h => exact .start (.members h)
  | name =>
    cases hrest with
    | colon hdone h => exact .name hdone h
  | emptyObject =>
    cases hrest with
    | last _ hs | more _ hs =>
      rw [ofJson?_closed] at hs
      cases hs
    | complete h =>
      obtain ⟨done, read, rfl, hdone⟩ := exists_of_closed h
      exact .empty hdone
  | colon =>
    cases hrest with
    | value hdone h => exact .colon hdone h
  | @member outer members name v =>
    generalize hmembers : Reader.member members name v = all at hrest
    cases hrest with
    | name hdone h =>
      obtain ⟨before, text, rfl, rfl, rfl⟩ := member_eq_some_iff.mp hmembers
      cases hdone with
      | cons hv hdone => exact .more hdone hv.2 h
  | @closeObject outer members name v =>
    cases hrest with
    | last _ hs | more _ hs =>
      rw [ofJson?_closed] at hs
      cases hs
    | complete h =>
      obtain ⟨done, read, hmembers, hdone⟩ := exists_of_closed h
      obtain ⟨before, text, rfl, rfl, rfl⟩ := member_eq_some_iff.mp hmembers
      cases hdone with
      | cons hv hdone => exact .last hdone hv.2

theorem remains_of_foldlM (h : ts.foldlM State.step? s = some s')
    (hatom : ∀ v, .value v ∈ ts → Atom v) (hend : Remains s' []) : Remains s ts := by
  induction ts generalizing s with
  | nil =>
    cases h
    exact hend
  | cons t ts ih =>
    rw [List.foldlM_cons] at h
    obtain ⟨next, hstep, h⟩ := Option.bind_eq_some_iff.mp h
    have hrest := ih h fun v hv => hatom v (List.mem_cons_of_mem _ hv)
    refine (step?_eq_some_iff.mp hstep).remains ?_ hrest
    rintro v rfl
    exact hatom v List.mem_cons_self

/-- A record is read from the tokens of an object of scalars only. -/
theorem exists_object (h : ofTokens? ts = some v) (hrecord : Record.ofJson? v = some r)
    (hatom : ∀ v, .value v ∈ ts → Atom v) : ∃ entries, Object ts entries := by
  obtain ⟨s, hs, hresult⟩ := Option.bind_eq_some_iff.mp h
  obtain rfl : s = ⟨[], .complete v⟩ := by
    unfold State.result? at hresult
    split at hresult
    · rename_i houter hstage
      cases hresult
      obtain ⟨outer, stage⟩ := s
      rw [State.mk.injEq]
      exact ⟨houter, hstage⟩
    · cases hresult
  cases remains_of_foldlM hs hatom (.complete hrecord) with
  | start h => exact ⟨_, h⟩

lemma Steps.foldlM_cons (h : Steps s t s') (ts : List Token) :
    (t :: ts).foldlM State.step? s = ts.foldlM State.step? s' := by
  rw [List.foldlM_cons, step?_eq_some_iff.mpr h]
  rfl

/-- The token of a scalar is read as a value that holds it. -/
lemma exists_steps_of_stands {scalar : Scalar} (h : Stands t scalar) :
    ∃ v, Scalar.ofJson? v = some scalar ∧ ∀ outer empty,
      Steps ⟨outer, .value empty⟩ t ⟨outer, .complete v⟩ := by
  cases h with
  | boolean b => exact ⟨boolean b, rfl, fun _ _ => .value⟩
  | @number n h => exact ⟨number n, rfl, fun _ _ => .value⟩
  | string s => exact ⟨string s, rfl, fun _ _ => .string⟩

theorem foldlM_members (h : Members ts entries) (done : List (String × Json)) (empty : Bool) :
    ∃ values, List.Forall₂ Record.Entry values entries ∧
      ts.foldlM State.step? ⟨[], .name (some done) empty⟩ =
        some ⟨[], .complete (object (done.reverse ++ values))⟩ := by
  induction h generalizing done empty with
  | @last name t scalar ht =>
    obtain ⟨v, hv, hstep⟩ := exists_steps_of_stands ht
    refine ⟨[(name, v)], .cons ⟨rfl, hv⟩ .nil, ?_⟩
    rw [Steps.name.foldlM_cons, Steps.colon.foldlM_cons, (hstep _ _).foldlM_cons,
      Steps.closeObject.foldlM_cons, ← List.reverse_cons]
    rfl
  | @more name t scalar ts entries ht _ ih =>
    obtain ⟨v, hv, hstep⟩ := exists_steps_of_stands ht
    obtain ⟨values, hvalues, hrun⟩ := ih ((name, v) :: done) false
    refine ⟨(name, v) :: values, .cons ⟨rfl, hv⟩ hvalues, ?_⟩
    rw [Steps.name.foldlM_cons, Steps.colon.foldlM_cons, (hstep _ _).foldlM_cons,
      Steps.member.foldlM_cons, member, hrun, List.reverse_cons, List.append_assoc]
    rfl

/-- The tokens of an object of scalars are read as a record of its members. -/
theorem ofTokens?_object (h : Object ts entries) :
    ∃ v, ofTokens? ts = some v ∧ Record.ofJson? v = some (Record.ofList entries) := by
  cases h with
  | empty => exact ⟨object [], rfl, rfl⟩
  | @members ts entries h =>
    obtain ⟨values, hvalues, hrun⟩ := foldlM_members h [] true
    refine ⟨object values, ?_, Record.ofJson?_object_eq_some_iff.mpr ⟨entries, hvalues, rfl⟩⟩
    rw [ofTokens?, Steps.openObject.foldlM_cons, hrun]
    rfl

end Json.Reader

open Json.Token (Laid Object)

/-- A text is read as a record if it is laid out as an object of scalars, which are the entries of
the record in their order. -/
theorem Record.parse?_eq_some_iff {text : String} {r : Record} : Record.parse? text = some r ↔
    ∃ ts entries, Laid text.toList ts ∧ Object ts entries ∧ r = ofList entries := by
  constructor
  · intro h
    obtain ⟨v, hparse, hrecord⟩ := Option.bind_eq_some_iff.mp h
    obtain ⟨ts, hscan, hv⟩ := Option.bind_eq_some_iff.mp hparse
    have hlaid := Json.Token.scan?_eq_some_iff.mp hscan
    obtain ⟨entries, hobject⟩ := Json.Reader.exists_object hv hrecord fun v => hlaid.atom
    obtain ⟨w, hw, hentries⟩ := Json.Reader.ofTokens?_object hobject
    cases hv.symm.trans hw
    exact ⟨ts, entries, hlaid, hobject, Option.some.inj (hrecord.symm.trans hentries)⟩
  · rintro ⟨ts, entries, hlaid, hobject, rfl⟩
    obtain ⟨v, hv, hrecord⟩ := Json.Reader.ofTokens?_object hobject
    simp only [parse?, Json.parse?, Json.Token.scan?_eq_some_iff.mpr hlaid, bind, Option.bind, hv,
      hrecord]

end Criteria
