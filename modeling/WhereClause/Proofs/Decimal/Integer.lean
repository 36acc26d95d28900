import Mathlib.Data.List.TakeDrop
import Mathlib.Data.List.TakeWhile
import WhereClause.DeclaredType

/-! Integers and their decimal texts. The text of an integer is read back as the integer and as the double
nearest to it, also between blanks. -/
namespace WhereClause

namespace Text
variable {before word after : List Char}

/-- Blanks around a text without blanks are all that is trimmed. -/
theorem trim_padded (hbefore : ∀ c ∈ before, isBlank c = true)
    (hafter : ∀ c ∈ after, isBlank c = true) (hword : ∀ c ∈ word, isBlank c = false) :
    trim (before ++ word ++ after) = word := by
  have hdrop {padding : List Char} (h : ∀ c ∈ padding, isBlank c = true) (rest : List Char) :
      (padding ++ rest).dropWhile isBlank = rest.dropWhile isBlank := by
    rw [List.dropWhile_append, List.dropWhile_eq_nil_iff.mpr h]
    rfl
  cases word with
  | nil =>
    have hnone : (before ++ [] ++ after).dropWhile isBlank = [] := by
      rw [List.append_nil, hdrop hbefore, List.dropWhile_eq_nil_iff.mpr hafter]
    rw [trim, hnone]
    rfl
  | cons first rest =>
    have hfront : (before ++ first :: rest ++ after).dropWhile isBlank = first :: rest ++ after := by
      rw [List.append_assoc, hdrop hbefore, List.cons_append,
        List.dropWhile_cons_of_neg (by simp [hword first List.mem_cons_self])]
    have hback : ((first :: rest).reverse).dropWhile isBlank = (first :: rest).reverse := by
      rw [List.dropWhile_eq_self_iff]
      intro hlength
      have hmem : ((first :: rest).reverse)[0] ∈ first :: rest := List.mem_reverse.mp (List.getElem_mem _)
      simpa using hword _ hmem
    rw [trim, hfront, List.reverse_append, hdrop (by simpa using hafter), hback,
      List.reverse_reverse]

end Text

namespace Decimal
variable {z : Int}

theorem int64?_eq_some_iff {i : Int64} : int64? z = some i ↔ i.toInt = z := by
  rw [int64?]
  constructor
  · intro h
    split at h
    · rename_i hrange
      cases h
      rw [Int64.toInt_minValue, Int64.toInt_maxValue] at hrange
      exact Int64.toInt_ofInt_of_le hrange.1 (by omega)
    · cases h
  · rintro rfl
    rw [if_pos ⟨i.minValue_le_toInt, i.toInt_le⟩, Int64.ofInt_toInt]

theorem int64?_eq_none_iff :
    int64? z = none ↔ ¬ (Int64.minValue.toInt ≤ z ∧ z ≤ Int64.maxValue.toInt) := by
  rw [int64?]
  split <;> simp_all

/-- The digits of an integer, behind a minus if it is negative. -/
theorem toList_repr (z : Int) : z.repr.toList =
    if z < 0 then '-' :: Nat.toDigits 10 z.natAbs else Nat.toDigits 10 z.natAbs := by
  cases z with
  | ofNat n =>
    rw [if_neg (by simp)]
    exact String.toList_ofList
  | negSucc n =>
    rw [if_pos (Int.negSucc_lt_zero n)]
    show ("-" ++ (n + 1).repr).toList = _
    rw [String.toList_append, Nat.toList_repr]
    rfl

theorem digits_all (n : Nat) : ∀ c ∈ Nat.toDigits 10 n, c.isDigit = true :=
  fun _ hc => Nat.isDigit_of_mem_toDigits (by decide) (by decide) hc

theorem splitSign_repr (z : Int) :
    splitSign z.repr.toList = (decide (z < 0), Nat.toDigits 10 z.natAbs) := by
  rw [toList_repr]
  by_cases hz : z < 0
  · rw [if_pos hz, decide_eq_true hz]
    rfl
  · rw [if_neg hz, decide_eq_false hz]
    have hdigits := digits_all z.natAbs
    generalize Nat.toDigits 10 z.natAbs = digits at hdigits
    unfold splitSign
    split
    · exact absurd (hdigits '-' List.mem_cons_self) (by decide)
    · exact absurd (hdigits '+' List.mem_cons_self) (by decide)
    · rfl

theorem integer?_repr (z : Int) : integer? z.repr.toList = some z := by
  simp only [integer?, splitSign_repr, natural?_toDigits, Option.bind_eq_bind, Option.bind_some,
    Option.pure_def, Option.map_some, decide_eq_true_eq, Option.some.injEq]
  split <;> omega

/-- Different integers have different texts. -/
theorem repr_injective : Function.Injective Int.repr := by
  intro z z' h
  have hread := integer?_repr z
  rw [h, integer?_repr] at hread
  exact (Option.some.inj hread).symm

/-- The text of an integer is read as the double nearest to it. -/
theorem double?_repr (z : Int) : double? z.repr.toList = some (floatOfInt z) := by
  have hspan : (Nat.toDigits 10 z.natAbs).span Char.isDigit = (Nat.toDigits 10 z.natAbs, []) := by
    rw [List.span_eq_takeWhile_dropWhile, List.takeWhile_eq_self_iff.mpr (digits_all _),
      List.dropWhile_eq_nil_iff.mpr (digits_all _)]
  rw [double?, splitSign_repr]
  simp only [hspan, List.append_nil, natural?_toDigits, exponent?]
  rfl

theorem isDigit_or_eq_of_mem_repr {c : Char} (h : c ∈ z.repr.toList) : c.isDigit = true ∨ c = '-' := by
  rw [toList_repr] at h
  split at h
  · rcases List.mem_cons.mp h with rfl | h
    · exact Or.inr rfl
    · exact Or.inl (digits_all _ c h)
  · exact Or.inl (digits_all _ c h)

theorem isBlank_eq_false_of_mem_repr {c : Char} (h : c ∈ z.repr.toList) : Text.isBlank c = false := by
  rcases isDigit_or_eq_of_mem_repr h with h | rfl
  · have h0 : '0'.val.toNat = 48 := rfl
    have h9 : '9'.val.toNat = 57 := rfl
    simp only [Char.isDigit, Bool.and_eq_true, decide_eq_true_eq, UInt32.le_iff_toNat_le, ge_iff_le,
      h0, h9] at h
    have hcode : 48 ≤ c.toNat ∧ c.toNat ≤ 57 := h
    simp only [Text.isBlank, Bool.or_eq_false_iff, Bool.and_eq_false_iff, decide_eq_false_iff_not,
      beq_eq_false_iff_ne]
    omega
  · rfl

/-- Between blanks the text of an integer is trimmed to itself. -/
theorem trim_padded_repr {before after : List Char} (hbefore : ∀ c ∈ before, Text.isBlank c = true)
    (hafter : ∀ c ∈ after, Text.isBlank c = true) :
    Text.trim (before ++ z.repr.toList ++ after) = z.repr.toList :=
  Text.trim_padded hbefore hafter fun _ h => isBlank_eq_false_of_mem_repr h

end Decimal

end WhereClause
