import WhereClause.Text.Case
import WhereClause.Text.Word

/-! Letters and digits by their code points, and what lower case does to them. Only ASCII letters change,
so that word symbols stay word symbols and digits stay digits. -/
namespace WhereClause.Text
variable {c : Char}

@[simp] theorem lower_append (s t : String) : lower (s ++ t) = lower s ++ lower t := by
  simp [lower]

theorem isUpper_iff : c.isUpper = true ↔ 65 ≤ c.toNat ∧ c.toNat ≤ 90 :=
  decide_eq_true_iff.trans (and_congr UInt32.le_iff_toNat_le UInt32.le_iff_toNat_le)

theorem isLower_iff : c.isLower = true ↔ 97 ≤ c.toNat ∧ c.toNat ≤ 122 :=
  Bool.and_eq_true_iff.trans (and_congr (decide_eq_true_iff.trans UInt32.le_iff_toNat_le)
    (decide_eq_true_iff.trans UInt32.le_iff_toNat_le))

theorem isDigit_iff : c.isDigit = true ↔ 48 ≤ c.toNat ∧ c.toNat ≤ 57 :=
  Bool.and_eq_true_iff.trans (and_congr (decide_eq_true_iff.trans UInt32.le_iff_toNat_le)
    (decide_eq_true_iff.trans UInt32.le_iff_toNat_le))

theorem isAlpha_iff : c.isAlpha = true ↔ c.isUpper = true ∨ c.isLower = true :=
  Bool.or_eq_true_iff

theorem isWordChar_iff :
    isWordChar c = true ↔ (c.isAlpha = true ∨ c.isDigit = true) ∨ c = '_' := by
  simp only [isWordChar, Char.isAlphanum, Bool.or_eq_true, beq_iff_eq]

theorem isWordChar_of_isAlpha (h : c.isAlpha = true) : isWordChar c = true :=
  isWordChar_iff.mpr (Or.inl (Or.inl h))

theorem isWordChar_of_isDigit (h : c.isDigit = true) : isWordChar c = true :=
  isWordChar_iff.mpr (Or.inl (Or.inr h))

theorem isDigit_eq_false_of_isAlpha (h : c.isAlpha = true) : c.isDigit = false := by
  rw [isAlpha_iff, isUpper_iff, isLower_iff] at h
  rw [← Bool.not_eq_true, isDigit_iff]
  omega

theorem isDigit_eq_false_of_isNameStart (h : isNameStart c = true) : c.isDigit = false := by
  rw [isNameStart, Bool.or_eq_true, beq_iff_eq] at h
  rcases h with h | rfl
  · exact isDigit_eq_false_of_isAlpha h
  · rfl

/-- What is changed by lower case is a capital letter, and a small letter afterwards. -/
theorem toLower_eq_self_or_isUpper (c : Char) :
    c.toLower = c ∨ c.isUpper = true ∧ c.toLower.isLower = true := by
  by_cases h : c.val ≥ 'A'.val ∧ c.val ≤ 'Z'.val
  · have hupper : c.isUpper = true := decide_eq_true h
    have hlower : c.toLower.val = c.val + 32 := congrArg Char.val (dif_pos h)
    have hcode : c.toLower.toNat = (c.toNat + 32) % 2 ^ 32 :=
      (congrArg UInt32.toNat hlower).trans (UInt32.toNat_add c.val 32)
    have hrange := isUpper_iff.mp hupper
    exact Or.inr ⟨hupper, isLower_iff.mpr (by omega)⟩
  · exact Or.inl (dif_neg h)

theorem toLower_toLower (c : Char) : c.toLower.toLower = c.toLower := by
  rcases toLower_eq_self_or_isUpper c.toLower with h | ⟨hupper, -⟩
  · exact h
  · rcases toLower_eq_self_or_isUpper c with h | ⟨-, hlower⟩
    · rw [h, h]
    · rw [isUpper_iff] at hupper
      rw [isLower_iff] at hlower
      omega

/-- Letter case does not change where words begin and end. -/
@[simp] theorem isWordChar_toLower (c : Char) : isWordChar c.toLower = isWordChar c := by
  rcases toLower_eq_self_or_isUpper c with h | ⟨hupper, hlower⟩
  · rw [h]
  · rw [isWordChar_of_isAlpha (isAlpha_iff.mpr (Or.inr hlower)),
      isWordChar_of_isAlpha (isAlpha_iff.mpr (Or.inl hupper))]

@[simp] theorem isDigit_toLower (c : Char) : c.toLower.isDigit = c.isDigit := by
  rcases toLower_eq_self_or_isUpper c with h | ⟨hupper, hlower⟩
  · rw [h]
  · rw [isDigit_eq_false_of_isAlpha (isAlpha_iff.mpr (Or.inr hlower)),
      isDigit_eq_false_of_isAlpha (isAlpha_iff.mpr (Or.inl hupper))]

theorem toLower_of_isDigit (h : c.isDigit = true) : c.toLower = c := by
  refine (toLower_eq_self_or_isUpper c).resolve_right ?_
  rintro ⟨hupper, -⟩
  rw [isDigit_eq_false_of_isAlpha (isAlpha_iff.mpr (Or.inl hupper))] at h
  cases h

theorem isDigit_head?_map_toLower {text : List Char} (h : ∀ x ∈ text.head?, x.isDigit = false) :
    ∀ x ∈ (text.map Char.toLower).head?, x.isDigit = false := by
  simpa [List.head?_map] using h

end WhereClause.Text
