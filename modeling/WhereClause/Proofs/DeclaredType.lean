import WhereClause.Proofs.Decimal.Integer
import WhereClause.Proofs.Text.Run

/-! An integer as a number and as the text of one. Under a type that is not a text both give the same
value, whatever blanks stand around the text. -/
namespace WhereClause.DeclaredType
variable {n : Json.Number} {z : Int}

theorem toFloat_of_toInt? (h : n.toInt? = some z) : n.toFloat = Decimal.floatOfInt z := by
  cases n with
  | signed i => cases h; rfl
  | unsigned n => cases h; rfl
  | double x => cases h

/-- Digits and a minus are in no letter case. -/
theorem map_toLower_repr (z : Int) : z.repr.toList.map Char.toLower = z.repr.toList := by
  conv_rhs => rw [← List.map_id z.repr.toList]
  refine List.map_congr_left fun c hc => ?_
  rcases Decimal.isDigit_or_eq_of_mem_repr hc with hdigit | rfl
  · exact Text.toLower_of_isDigit hdigit
  · rfl

/-- A word that begins with a letter is not the text of an integer. -/
theorem repr_ne_of_head {first : Char} {word : String} (hword : word.toList.head? = some first)
    (hdigit : first.isDigit = false) (hminus : first ≠ '-') : z.repr.toList ≠ word.toList := by
  intro h
  have hmem : first ∈ z.repr.toList := h ▸ List.mem_of_mem_head? hword
  rcases Decimal.isDigit_or_eq_of_mem_repr hmem with hfirst | hfirst
  · simp [hdigit] at hfirst
  · exact hminus hfirst

/-- A number that was written as the integer, or the text of the integer between blanks. -/
inductive Represents (z : Int) : Json → Prop
  | number {n : Json.Number} (h : n.toInt? = some z) : Represents z (.number n)
  | text {s : String} (h : Text.trim s.toList = z.repr.toList) : Represents z (.string s)

section
variable {json : Json} {v : Value} (h : Represents z json)
include h

theorem readInt?_of_represents : readInt? json = some z := by
  cases h with
  | number h => exact h
  | text h => rw [readInt?, h, Decimal.integer?_repr]

theorem readFloat?_of_represents : readFloat? json = some (Decimal.floatOfInt z) := by
  cases h with
  | number h => rw [readFloat?, toFloat_of_toInt? h]
  | text h => rw [readFloat?, h, Decimal.double?_repr]

/-- Of the texts that stand for a truth value the text of an integer can only be that of zero or one. -/
theorem boolean?_of_represents :
    boolean? json = if z = 1 then some (.bool true) else if z = 0 then some (.bool false) else none := by
  cases h with
  | number h =>
    -- the number is compared with zero first, the text with one
    by_cases hone : z = 1
    · simp [boolean?, h, hone]
    · simp [boolean?, h, hone]
  | text h =>
    have htrue : z.repr.toList ≠ "true".toList := repr_ne_of_head rfl rfl (by decide)
    have hfalse : z.repr.toList ≠ "false".toList := repr_ne_of_head rfl rfl (by decide)
    have hone : z.repr.toList = "1".toList ↔ z = 1 :=
      String.toList_inj.trans (Decimal.repr_injective.eq_iff' rfl)
    have hzero : z.repr.toList = "0".toList ↔ z = 0 :=
      String.toList_inj.trans (Decimal.repr_injective.eq_iff' rfl)
    simp only [boolean?, h, map_toLower_repr, htrue, hfalse, hone, hzero, false_or]

theorem integer?_eq_some_iff : integer? json = some v ↔ ∃ i : Int64, v = .int i ∧ i.toInt = z := by
  rw [integer?, readInt?_of_represents h, Option.bind_some, Option.map_eq_some_iff]
  simp only [Decimal.int64?_eq_some_iff]
  constructor
  · rintro ⟨i, hi, rfl⟩
    exact ⟨i, rfl, hi⟩
  · rintro ⟨i, rfl, hi⟩
    exact ⟨i, hi, rfl⟩

theorem integer?_eq_none_iff :
    integer? json = none ↔ ¬ (Int64.minValue.toInt ≤ z ∧ z ≤ Int64.maxValue.toInt) := by
  rw [integer?, readInt?_of_represents h, Option.bind_some, Option.map_eq_none_iff,
    Decimal.int64?_eq_none_iff]

theorem double?_eq_some_iff :
    double? json = some v ↔
      v = .float (Decimal.floatOfInt z) ∧ (Decimal.floatOfInt z).isFinite = true := by
  rw [double?, readFloat?_of_represents h, Option.map_eq_some_iff]
  simp only [Option.filter_eq_some_iff, Option.some.injEq]
  constructor
  · rintro ⟨_, ⟨rfl, hfinite⟩, rfl⟩
    exact ⟨rfl, hfinite⟩
  · rintro ⟨rfl, hfinite⟩
    exact ⟨_, ⟨rfl, hfinite⟩, rfl⟩

theorem boolean?_eq_some_iff :
    boolean? json = some v ↔ z = 0 ∧ v = .bool false ∨ z = 1 ∧ v = .bool true := by
  rw [boolean?_of_represents h]
  by_cases hone : z = 1
  · simp [hone, eq_comm]
  · by_cases hzero : z = 0
    · simp [hzero, eq_comm]
    · simp [hone, hzero]

/-- Whatever represents the integer is converted alike, or not at all. -/
theorem convert?_eq_of_represents {other : Json} (hother : Represents z other) {type : DeclaredType}
    (htype : type ∈ [integer, double, boolean]) : type.convert? json = type.convert? other := by
  simp only [List.mem_cons, List.not_mem_nil, or_false] at htype
  rcases htype with rfl | rfl | rfl
  · exact Option.ext fun v => (integer?_eq_some_iff h).trans (integer?_eq_some_iff hother).symm
  · exact Option.ext fun v => (double?_eq_some_iff h).trans (double?_eq_some_iff hother).symm
  · exact Option.ext fun v => (boolean?_eq_some_iff h).trans (boolean?_eq_some_iff hother).symm

end

/-- An integer and its text between blanks are converted alike, or neither is. As integers both are taken
exactly within 64 bits with a sign, and stay what they are. As doubles both become the nearest one if it is
finite, and truth values are only zero and one. -/
theorem convert?_repr (hz : n.toInt? = some z) {before after : List Char} {s : String}
    (hbefore : ∀ c ∈ before, Text.isBlank c = true) (hafter : ∀ c ∈ after, Text.isBlank c = true)
    (hs : s.toList = before ++ z.repr.toList ++ after) :
    (∀ type ∈ [integer, double, boolean], type.convert? (.number n) = type.convert? (.string s)) ∧
      (∀ v, integer.convert? (.number n) = some v ↔ ∃ i : Int64, v = .int i ∧ i.toInt = z) ∧
      (integer.convert? (.number n) = none ↔
        ¬ (Int64.minValue.toInt ≤ z ∧ z ≤ Int64.maxValue.toInt)) ∧
      (∀ v, double.convert? (.number n) = some v ↔
        v = .float (Decimal.floatOfInt z) ∧ (Decimal.floatOfInt z).isFinite = true) ∧
      ∀ v, boolean.convert? (.number n) = some v ↔
        z = 0 ∧ v = .bool false ∨ z = 1 ∧ v = .bool true := by
  have hnumber : Represents z (.number n) := .number hz
  have htext : Represents z (.string s) := .text (hs ▸ Decimal.trim_padded_repr hbefore hafter)
  exact ⟨fun type htype => convert?_eq_of_represents hnumber htext htype,
    fun v => integer?_eq_some_iff hnumber, integer?_eq_none_iff hnumber,
    fun v => double?_eq_some_iff hnumber, fun v => boolean?_eq_some_iff hnumber⟩

/-- The first integer that no signed word holds, and the last one that does, with blanks around their texts
that are no ASCII characters. -/
theorem convert?_repr_boundary :
    let beyond := Json.string "\u3000 9223372036854775808\u00a0"
    let last := Json.string "\t9223372036854775807\u2003"
    let nearest := Value.float (Decimal.floatOfInt 9223372036854775808)
    (double.convert? (.number (.unsigned 9223372036854775808)) = some nearest ∧
      double.convert? beyond = some nearest ∧
      integer.convert? (.number (.unsigned 9223372036854775808)) = none ∧
      integer.convert? beyond = none) ∧
    integer.convert? (.number (.unsigned 9223372036854775807)) = some (.int Int64.maxValue) ∧
      integer.convert? last = some (.int Int64.maxValue) := by
  intro beyond last nearest
  obtain ⟨hsame, -, hinteger, hdouble, -⟩ :=
    @convert?_repr (.unsigned 9223372036854775808) 9223372036854775808 rfl
      ['\u3000', ' '] ['\u00a0'] "\u3000 9223372036854775808\u00a0" (by simp [Text.isBlank])
      (by simp [Text.isBlank]) (by decide +kernel)
  obtain ⟨hsame', hinteger', -⟩ :=
    @convert?_repr (.unsigned 9223372036854775807) 9223372036854775807 rfl
      ['\t'] ['\u2003'] "\t9223372036854775807\u2003" (by simp [Text.isBlank])
      (by simp [Text.isBlank]) (by decide +kernel)
  have hnearest : double.convert? (.number (.unsigned 9223372036854775808)) = some nearest :=
    (hdouble nearest).mpr ⟨rfl, by decide +kernel⟩
  have hnone : integer.convert? (.number (.unsigned 9223372036854775808)) = none := hinteger.mpr (by decide)
  have hmax : integer.convert? (.number (.unsigned 9223372036854775807)) = some (.int Int64.maxValue) :=
    (hinteger' _).mpr ⟨Int64.maxValue, rfl, rfl⟩
  exact ⟨⟨hnearest, (hsame double (by decide)).symm.trans hnearest, hnone,
    (hsame integer (by decide)).symm.trans hnone⟩, hmax, (hsame' integer (by decide)).symm.trans hmax⟩

end WhereClause.DeclaredType
