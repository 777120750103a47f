import Criteria.Evaluation
import Mathlib.Data.List.Basic

/-! The order of encodings. A character is encoded by one to four bytes, the first of which tells
their number and grows with it, so texts compare by their bytes as they compare by their code
points. -/
namespace Criteria.Text

/-- The code points of a text, which compare as numbers. -/
def codePoints (s : String) : List ℕ := s.toList.map Char.toNat

section Lists

variable {α : Type} [Ord α]

theorem compare_append_left [Std.ReflOrd α] (front xs ys : List α) :
    compare (front ++ xs) (front ++ ys) = compare xs ys := by
  induction front with
  | nil => rfl
  | cons a front ih =>
    rw [List.cons_append, List.cons_append, List.compare_cons_cons, Std.compare_self, ih]
    rfl

theorem compare_eq_lt_iff [LT α] [LE α] [Std.LawfulOrderOrd α] [Std.LawfulOrderLT α]
    [Std.LawfulEqOrd α] (xs ys : List α) : compare xs ys = .lt ↔ xs < ys := by
  induction xs generalizing ys with
  | nil => cases ys <;> simp
  | cons x xs ih =>
    cases ys with
    | nil => simp
    | cons y ys =>
      rw [List.compare_cons_cons, Ordering.then_eq_lt, Std.compare_eq_lt, Std.compare_eq_iff_eq,
        ih, List.cons_lt_cons_iff]

end Lists

theorem codePoints_inj {s t : String} : codePoints s = codePoints t ↔ s = t := by
  refine ⟨fun h => ?_, congrArg codePoints⟩
  have hchars : Function.Injective (List.map Char.toNat) :=
    List.map_injective_iff.mpr fun _ _ => Char.toNat_inj.mp
  exact String.toList_injective (hchars h)

theorem toNat_lt (c : Char) : c.toNat < 0x110000 := by
  have h := c.valid
  rcases h with h | ⟨-, h⟩
  · have : c.toNat < 0xd800 := h
    omega
  · exact h

theorem compare_ofNat_cons (m n : ℕ) (xs ys : List UInt8) :
    compare (UInt8.ofNat m :: xs) (UInt8.ofNat n :: ys) = .lt ↔
      m % 256 < n % 256 ∨ m % 256 = n % 256 ∧ compare xs ys = .lt := by
  rw [List.compare_cons_cons, Ordering.then_eq_lt, Std.compare_eq_lt, Std.compare_eq_iff_eq,
    UInt8.lt_iff_toNat_lt, ← UInt8.toNat_inj, UInt8.toNat_ofNat', UInt8.toNat_ofNat']

/-- The first byte that differs decides in favour of the smaller code point. Every byte after the
first holds the last digit, to the base 64, of what is left. -/
theorem compare_encode_of_lt {c d : Char} (h : c.toNat < d.toNat) (xs ys : List UInt8) :
    compare (String.utf8EncodeChar c ++ xs) (String.utf8EncodeChar d ++ ys) = .lt := by
  have hd := toNat_lt d
  have hthird (n : ℕ) : n / 4096 = n / 64 / 64 := by omega
  have hfourth (n : ℕ) : n / 262144 = n / 64 / 64 / 64 := by omega
  simp only [String.utf8EncodeChar, Char.toNat_val, hthird, hfourth]
  split_ifs <;> simp only [List.cons_append, compare_ofNat_cons] <;> omega

theorem bytes_eq (s : String) :
    s.toByteArray.data.toList = s.toList.flatMap String.utf8EncodeChar := by
  have hbytes : s.toByteArray = s.toList.utf8Encode := by
    rw [← String.toByteArray_ofList, String.ofList_toList]
  rw [hbytes]
  exact List.toList_data_toByteArray

theorem compare_flatMap_encode (cs ds : List Char) :
    compare (cs.flatMap String.utf8EncodeChar) (ds.flatMap String.utf8EncodeChar) =
      compare (cs.map Char.toNat) (ds.map Char.toNat) := by
  induction cs generalizing ds with
  | nil =>
    cases ds with
    | nil => rfl
    | cons d ds =>
      obtain ⟨b, bs, hd⟩ := List.exists_cons_of_ne_nil (String.utf8EncodeChar_ne_nil (c := d))
      rw [List.flatMap_cons, hd]
      rfl
  | cons c cs ih =>
    cases ds with
    | nil =>
      obtain ⟨b, bs, hc⟩ := List.exists_cons_of_ne_nil (String.utf8EncodeChar_ne_nil (c := c))
      rw [List.flatMap_cons, hc]
      rfl
    | cons d ds =>
      simp only [List.flatMap_cons, List.map_cons, List.compare_cons_cons]
      rcases Nat.lt_trichotomy c.toNat d.toNat with h | h | h
      · rw [compare_encode_of_lt h, Nat.compare_eq_lt.mpr h]
        rfl
      · obtain rfl := Char.toNat_inj.mp h
        rw [compare_append_left, Std.compare_self, ih]
        rfl
      · rw [Std.OrientedCmp.gt_iff_lt.mpr (compare_encode_of_lt h _ _), Nat.compare_eq_gt.mpr h]
        rfl

/-- Texts are ordered by their encodings as by their code points. -/
theorem compareBytes_eq (s t : String) :
    compareBytes s t = compare (codePoints s) (codePoints t) := by
  rw [compareBytes, bytes_eq, bytes_eq, compare_flatMap_encode]
  rfl

end Criteria.Text
