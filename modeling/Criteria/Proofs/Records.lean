import Criteria.Proofs.Json.Expr
import Criteria.Proofs.Json.Objects

/-! Records and the texts that they are read from. A record keeps the last value of each name, so
its entries can be written in any order. -/
namespace Criteria

namespace Json.Token

variable {t : Token} {ts : List Token} {s : Scalar} {entries : List (String × Scalar)}

theorem Stands.isFinite (h : Stands t s) : s.isFinite = true := by
  cases h with
  | boolean | string => rfl
  | number h => exact h

theorem Members.isFinite (h : Members ts entries) : ∀ e ∈ entries, e.2.isFinite = true := by
  induction h with
  | last h => simpa using h.isFinite
  | more h _ ih => exact List.forall_mem_cons.mpr ⟨h.isFinite, ih⟩

theorem Object.isFinite (h : Object ts entries) : ∀ e ∈ entries, e.2.isFinite = true := by
  cases h with
  | empty => simp
  | members h => exact h.isFinite

end Json.Token

namespace Record

variable {r r' : Record} {entries : List (String × Scalar)} {name : String} {v : Scalar}

theorem mem_toList_iff : (name, v) ∈ r.toList ↔ r.get? name = some v :=
  Std.TreeMap.mem_toList_iff_getElem?_eq_some

theorem pairwise_toList (r : Record) : r.toList.Pairwise fun e f => e.1 ≠ f.1 := by
  refine (Std.TreeMap.distinct_keys_toList (t := r.entries)).imp fun h heq => h ?_
  exact Std.compare_eq_iff_eq.mpr heq

theorem toList_eq_of_get? (h : ∀ name, r.get? name = r'.get? name) : r.toList = r'.toList :=
  (Std.TreeMap.Equiv.of_forall_constGet?_eq h).toList_eq

theorem get?_ofList (entries : List (String × Scalar)) (name : String) :
    (ofList entries).get? name = entries.reverse.lookup name := by
  rw [ofList, List.foldl_eq_foldr_reverse]
  induction entries.reverse with
  | nil => simp [get?, empty]
  | cons e entries ih =>
    rw [List.foldr_cons, get?_insert, ih, List.lookup_cons]
    cases hname : name == e.1 with
    | true => exact if_pos (beq_iff_eq.mp hname).symm
    | false => exact if_neg (Ne.symm (beq_eq_false_iff_ne.mp hname))

/-- A name has the value of its last entry. -/
theorem get?_ofList_eq_some_iff : (ofList entries).get? name = some v ↔
    ∃ before after, entries = before ++ (name, v) :: after ∧ ∀ e ∈ after, e.1 ≠ name := by
  rw [get?_ofList, List.lookup_eq_some_iff]
  simp only [bne_iff_ne, ne_comm]
  constructor
  · rintro ⟨after, before, hentries, hafter⟩
    refine ⟨before.reverse, after.reverse, ?_, by simpa using hafter⟩
    simpa using congrArg List.reverse hentries
  · rintro ⟨before, after, rfl, hafter⟩
    exact ⟨after.reverse, before.reverse, by simp, by simpa using hafter⟩

theorem contains_ofList (entries : List (String × Scalar)) (name : String) :
    (ofList entries).contains name = true ↔ name ∈ entries.map Prod.fst := by
  rw [contains_eq_isSome, get?_ofList, List.lookup_isSome_iff]
  simp only [List.mem_reverse, beq_iff_eq, List.mem_map, @eq_comm _ name]

/-- The entries of a record, in any order, are those of a record with the same entries. -/
theorem toList_ofList_of_perm (h : entries.Perm r.toList) : (ofList entries).toList = r.toList := by
  refine toList_eq_of_get? fun name => Option.ext fun v => ?_
  have hpairwise : entries.Pairwise fun e f => e.1 ≠ f.1 :=
    (h.pairwise_iff fun hne => Ne.symm hne).mpr r.pairwise_toList
  rw [get?_ofList_eq_some_iff, ← mem_toList_iff, ← h.mem_iff]
  constructor
  · rintro ⟨before, after, rfl, -⟩
    simp
  · intro hmem
    obtain ⟨before, after, rfl⟩ := List.append_of_mem hmem
    refine ⟨before, after, rfl, fun e he => ?_⟩
    have hbehind := (List.pairwise_append.mp hpairwise).2.1
    exact Ne.symm ((List.pairwise_cons.mp hbehind).1 e he)

theorem isFinite_of_ofList (h : ∀ e ∈ entries, e.2.isFinite = true) :
    ∀ e ∈ (ofList entries).toList, e.2.isFinite = true := by
  rintro ⟨name, v⟩ he
  obtain ⟨before, after, rfl, -⟩ := get?_ofList_eq_some_iff.mp (mem_toList_iff.mp he)
  exact h (name, v) (by simp)

/-- What is written for finite entries is read as a document that holds them. -/
theorem exists_entries (h : ∀ e ∈ entries, e.2.isFinite = true) :
    ∃ values, List.Forall₂ Entry values entries ∧
      List.Forall₂ (fun m v => m.1 = v.1 ∧ Json.Reader.Spells m.2.text.toList v.2)
        (entries.map fun e => (e.1, e.2.toJson)) values := by
  induction entries with
  | nil => exact ⟨[], .nil, .nil⟩
  | cons e entries ih =>
    obtain ⟨he, hentries⟩ := List.forall_mem_cons.mp h
    obtain ⟨v, hv⟩ := Scalar.exists_documents he
    obtain ⟨values, hholds, hspells⟩ := ih hentries
    exact ⟨(e.1, v) :: values, .cons ⟨rfl, hv.ofJson⟩ hholds, .cons ⟨rfl, hv.spells⟩ hspells⟩

theorem parse?_text (h : ∀ e ∈ entries, e.2.isFinite = true) :
    parse? (Json.object (entries.map fun e => (e.1, e.2.toJson))).text = some (ofList entries) := by
  obtain ⟨values, hholds, hspells⟩ := exists_entries h
  have hparse := (Json.Reader.spells_object hspells).parse?
  have hrecord := ofJson?_object_eq_some_iff.mpr ⟨entries, hholds, rfl⟩
  simp only [parse?, hparse, bind, Option.bind, hrecord]

theorem ofJsonText_eq_ok_iff {text : String} : ofJsonText text = .ok r ↔ parse? text = some r := by
  unfold ofJsonText
  cases parse? text <;> simp

open Json.Token (Laid Object Spelled words hexadecimal_byte)

/-- A record is read from a text if the text is an object of scalars, and from no other. It has the
names of the members, each with the value of its last occurrence, and no number that is not finite.
What is written for the entries of such a record, in any order, is read as a record that has the
same entries. -/
theorem reads_objects_of_scalars :
    (∀ text, (∃ r, ofJsonText text = .ok r) ↔
      ∃ ts entries, Laid text.toList ts ∧ Object ts entries) ∧
    (∀ text ts entries, Laid text.toList ts → Object ts entries → ∃ r, ofJsonText text = .ok r ∧
      (∀ name, r.contains name = true ↔ name ∈ entries.map Prod.fst) ∧
      (∀ name v, r.get? name = some v ↔ ∃ before after, entries = before ++ (name, v) :: after ∧
        ∀ e ∈ after, e.1 ≠ name) ∧
      ∀ e ∈ r.toList, e.2.isFinite = true) ∧
    ∀ r : Record, (∀ e ∈ r.toList, e.2.isFinite = true) →
      ∀ entries : List (String × Scalar), entries.Perm r.toList → ∃ r',
        ofJsonText (Json.object (entries.map fun e => (e.1, e.2.toJson))).text = .ok r' ∧
          r'.toList = r.toList := by
  refine ⟨fun text => ?accepted, fun text ts entries hlaid hobject => ?held,
    fun r hfinite entries hperm => ?written⟩
  case accepted =>
    simp only [ofJsonText_eq_ok_iff, parse?_eq_some_iff]
    constructor
    · rintro ⟨r, ts, entries, hlaid, hobject, -⟩
      exact ⟨ts, entries, hlaid, hobject⟩
    · rintro ⟨ts, entries, hlaid, hobject⟩
      exact ⟨_, ts, entries, hlaid, hobject, rfl⟩
  case held =>
    refine ⟨ofList entries, ?_, contains_ofList entries, fun _ _ => get?_ofList_eq_some_iff,
      isFinite_of_ofList hobject.isFinite⟩
    exact ofJsonText_eq_ok_iff.mpr (parse?_eq_some_iff.mpr ⟨ts, entries, hlaid, hobject, rfl⟩)
  case written =>
    refine ⟨ofList entries, ?_, toList_ofList_of_perm hperm⟩
    exact ofJsonText_eq_ok_iff.mpr (parse?_text fun e he => hfinite e (hperm.mem_iff.mp he))

/-- A name that occurs twice, behind a space and with a letter escaped; and two entries that are
written in the other order. -/
theorem reads_objects_of_scalars_repeated :
    (∃ r, ofJsonText "\x7b\"a\":true, \"a\":\"\\u0041\"\x7d" = .ok r ∧
      r.get? "a" = some (.string "A") ∧ r.contains "A" = false) ∧
    ∃ r, ofJsonText "\x7b\"b\":\"\\\"\",\"a\":true\x7d" = .ok r ∧
      r.toList = [("a", .boolean true), ("b", .string "\"")] := by
  obtain ⟨-, hheld, hwritten⟩ := reads_objects_of_scalars
  constructor
  · have hopen (rest : List Char) : Spelled ['\x7b'] .openObject rest := .word (by simp [words])
    have hcolon (rest : List Char) : Spelled [':'] .colon rest := .word (by simp [words])
    have hcomma (rest : List Char) : Spelled [','] .comma rest := .word (by simp [words])
    have hclose (rest : List Char) : Spelled ['\x7d'] .closeObject rest := .word (by simp [words])
    have htrue (rest : List Char) : Spelled ['t', 'r', 'u', 'e'] (.value (.boolean true)) rest :=
      .word (by simp [words])
    have hname (rest : List Char) : Spelled ['"', 'a', '"'] (.string (some "a")) rest :=
      .string (.cons (.plain (by decide) (by decide) (by decide)) .nil) (.char .nil)
    have hletter (rest : List Char) :
        Spelled ['"', '\\', 'u', '0', '0', '4', '1', '"'] (.string (some "A")) rest :=
      .string (.cons (.code rfl (hexadecimal_byte (n := 0x41) (by decide))) .nil) (.char .nil)
    have hlaid := Laid.token (hopen _) <| .token (hname _) <| .token (hcolon _) <|
      .token (htrue _) <| .token (hcomma _) <| .space (c := ' ') rfl <| .token (hname _) <|
      .token (hcolon _) <| .token (hletter _) <| .token (hclose _) .nil
    obtain ⟨r, hread, hnames, hlast, -⟩ := hheld "\x7b\"a\":true, \"a\":\"\\u0041\"\x7d" _ _ hlaid
      (.members (.more (.boolean true) (.last (.string "A"))))
    refine ⟨r, hread, (hlast _ _).mpr ⟨[("a", .boolean true)], [], rfl, by simp⟩, ?_⟩
    rw [← Bool.not_eq_true, hnames]
    decide
  · let r : Record := ofList [("a", .boolean true), ("b", .string "\"")]
    have hr : r.toList = [("a", .boolean true), ("b", .string "\"")] := rfl
    have htext : "\x7b\"b\":\"\\\"\",\"a\":true\x7d" =
        (Json.object [("b", .string "\""), ("a", .boolean true)]).text := by decide +kernel
    have hperm : [("b", Scalar.string "\""), ("a", .boolean true)].Perm r.toList := by
      rw [hr]
      exact .swap _ _ _
    obtain ⟨r', hread, hlist⟩ := hwritten r (by simp [hr, Scalar.isFinite]) _ hperm
    exact ⟨r', htext ▸ hread, hlist.trans hr⟩

end Record
end Criteria
