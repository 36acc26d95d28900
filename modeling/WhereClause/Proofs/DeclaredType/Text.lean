import WhereClause.Proofs.Decimal.Nearest
import WhereClause.Proofs.Decimal.Shortest
import WhereClause.Proofs.Rule.Typing

/-! The text of an integer under a type of texts. Within 64 bits with a sign it is exact. Beyond them it is
the text of the nearest double, and every integer with that double has it too. -/
namespace WhereClause.DeclaredType
open Binary

/-- The integers beyond 64 bits with a sign that have the same nearest double. -/
def Alike (z : Int) (w : Nat) : Prop :=
  Int64.maxValue.toInt < w ∧ Decimal.floatOfInt w = Decimal.floatOfInt z

/-- The integer that the nearest double is. -/
def nearest (z : Int) : Nat :=
  (Binary.ofFloat (Decimal.floatOfInt z)).value

/-- The integer whose text stands for another one. -/
inductive StandsFor : Int → Int → Prop where
  | same {z : Int} (h : z ≤ Int64.maxValue.toInt) : StandsFor z z
  | roundest {z : Int} {y : Nat} (h : Int64.maxValue.toInt < z) (hzeros : 1000 ∣ y)
    (hy : Roundest (Alike z) (nearest z) y) : StandsFor z y

namespace StandsFor
variable {z z' y y' : Int}

theorem unique (h : StandsFor z y) (h' : StandsFor z y') : y = y' := by
  cases h with
  | same h =>
    cases h' with
    | same => rfl
    | roundest hlt => omega
  | roundest hlt _ hy =>
    cases h' with
    | same h => omega
    | roundest _ _ hy' => rw [hy.eq hy']

/-- Beyond 64 bits with a sign only multiples of a thousand stand for an integer. -/
theorem thousand_dvd (h : StandsFor z y) (hz : Int64.maxValue.toInt < z) : 1000 ∣ y := by
  cases h with
  | same => omega
  | roundest _ hzeros => exact Int.natCast_dvd_natCast.mpr hzeros

/-- One text stands for two integers only if they are beyond 64 bits and have the same nearest double. -/
theorem eq_or_alike (h : StandsFor z y) (h' : StandsFor z' y) :
    z = z' ∨ Int64.maxValue.toInt < z ∧ Alike z z'.toNat := by
  cases h with
  | same h =>
    cases h' with
    | same => exact Or.inl rfl
    | roundest hlt hzeros hy => exact absurd hy.mem.1 (by omega)
  | roundest h _ hy =>
    rcases h' with h' | ⟨hlt, _, hy'⟩
    · exact absurd hy.mem.1 (by omega)
    · have hmax : (0 : Int) ≤ Int64.maxValue.toInt := by decide
      have hz' : (z'.toNat : Int) = z' := Int.toNat_of_nonneg (by omega)
      exact Or.inr ⟨h, by rwa [hz'], by rw [hz', ← hy.mem.2, hy'.mem.2]⟩

/-- Integers with the same nearest double share their text. -/
theorem of_alike (h : StandsFor z y) (hz : Int64.maxValue.toInt < z) (halike : Alike z z'.toNat) :
    StandsFor z' y := by
  obtain ⟨hlt, hdouble⟩ := halike
  have hmax : (0 : Int) ≤ Int64.maxValue.toInt := by decide
  have hz' : (z'.toNat : Int) = z' := Int.toNat_of_nonneg (by omega)
  rw [hz'] at hlt hdouble
  rcases h with h | ⟨_, hzeros, hy⟩
  · omega
  · have halike : Alike z' = Alike z := by unfold Alike; rw [hdouble]
    have hnearest : nearest z' = nearest z := by rw [nearest, nearest, hdouble]
    exact .roundest hlt hzeros (by rwa [halike, hnearest])

end StandsFor

section Beyond
variable {b : Binary} {n y : Nat}

/-- In the double of an integer beyond 64 bits with a sign the last bit is worth more than a thousand. -/
theorem le_grain (hb : b.Coarse) (h : b.RoundsFrom n) (hn : 2 ^ 63 ≤ n) : 2 ^ 9 ≤ b.grain := by
  by_contra hsmall
  rw [grain] at hsmall
  have hexponent := (Nat.pow_lt_pow_iff_right (by decide : 1 < 2)).mp (Nat.not_le.mp hsmall)
  have hgrain : b.grain ≤ 2 ^ 8 := Nat.pow_le_pow_right (by decide) (by omega)
  have hbound : (b.significand + 1) * b.grain ≤ 2 ^ 53 * b.grain := Nat.mul_le_mul_right _ hb.significand_lt
  have hhigh := h.le_value
  have hpos := b.grain_pos
  rw [hb.value_eq] at hhigh
  linarith

/-- Above the double comes a multiple of a thousand that rounds to it. -/
theorem thousand_dvd_of_roundest (hgrain : 2 ^ 9 ≤ b.grain) (hy : Roundest b.RoundsFrom b.value y) :
    1000 ∣ y := by
  have hrounds : b.RoundsFrom (1000 * (b.value / 1000 + 1)) := ⟨by omega, by omega, by omega⟩
  exact hy.zeros 3 _ hrounds (Nat.dvd_mul_right 1000 _)

/-- No multiple of a thousand within 64 bits with a sign rounds to a double beyond them. -/
theorem beyond_of_roundsFrom (hb : b.Coarse) (hgrain : 2 ^ 9 ≤ b.grain) (h : b.RoundsFrom y)
    (hzeros : 1000 ∣ y) : 2 ^ 63 ≤ y := by
  have hlow := h.value_le
  rw [hb.value_eq, hb.below_eq] at hlow
  split at hlow
  · rename_i hpow
    rw [hpow] at hlow
    omega
  · have hbound : (2 ^ 52 + 1) * b.grain ≤ b.significand * b.grain :=
      Nat.mul_le_mul_right _ (by have := hb.le_significand; omega)
    linarith

/-- Beyond 64 bits with a sign the text of the nearest double is that of the roundest integer that has it. -/
theorem exists_roundest (hn : 2 ^ 63 ≤ n) (hlt : n < 2 ^ 64) : ∃ y : Nat,
    shortestText (Decimal.floatOfInt n) = (y : Int).repr ∧ 1000 ∣ y ∧
      Roundest (Alike n) (nearest n) y := by
  have hmax : Int64.maxValue.toInt = 2 ^ 63 - 1 := by decide
  have hlength : (Nat.toDigits 10 n).length ≤ 400 :=
    Decimal.length_toDigits_le (by decide) (by decide : 64 ≤ 3 * 400) hlt
  obtain ⟨b, hpos, hfloat, hb, hrounds⟩ := Decimal.exists_toFloat (by omega) hlength
  have hexponent := hb.exponent_le_of_lt hrounds hlt
  have hgrain := le_grain hb hrounds hn
  obtain ⟨d, k, hshortest, hroundest⟩ := hb.roundest_shortest
  have hzeros := thousand_dvd_of_roundest hgrain hroundest
  have hbeyond := beyond_of_roundsFrom hb hgrain hroundest.mem hzeros
  have hd : 0 < d := Nat.pos_of_mul_pos_right (Nat.lt_of_lt_of_le (by decide) hbeyond)
  refine ⟨d * 10 ^ k, ?_, hzeros, ?_⟩
  · rw [hfloat, hb.shortestText_toFloat hpos hexponent, hshortest, Decimal.positional_natCast hd]
    rfl
  · have hnearest : nearest n = b.value := by rw [nearest, hfloat, hb.ofFloat_toFloat hpos hexponent]
    rw [hnearest]
    refine hroundest.mono ⟨by omega, ?_⟩ fun w hw => ?_
    · rw [hfloat]
      exact (Decimal.floatOfInt_eq_toFloat_iff hpos hb hexponent (by omega)).mpr hroundest.mem
    · have hlarge := hw.1
      refine (Decimal.floatOfInt_eq_toFloat_iff hpos hb hexponent (by omega)).mp ?_
      exact hw.2.trans hfloat

end Beyond

/-- An integer has the text of the one that stands for it. -/
theorem exists_standsFor {n : Json.Number} {z : Int} (hz : n.toInt? = some z) :
    ∃ y, StandsFor z y ∧ n.toValue.toText = y.repr := by
  have hmax : Int64.maxValue.toInt = 2 ^ 63 - 1 := by decide
  cases n with
  | double x => cases hz
  | signed i =>
    cases hz
    exact ⟨i.toInt, .same i.toInt_le, rfl⟩
  | unsigned n =>
    cases hz
    rw [Json.Number.toValue]
    cases hword : Decimal.int64? n.toNat with
    | some i =>
      have hi := Decimal.int64?_eq_some_iff.mp hword
      exact ⟨i.toInt, by rw [← hi]; exact .same i.toInt_le, rfl⟩
    | none =>
      have hrange := Decimal.int64?_eq_none_iff.mp hword
      have hmin := Int64.toInt_minValue_lt_zero
      obtain ⟨y, htext, hzeros, hy⟩ := exists_roundest (n := n.toNat) (by omega) n.toNat_lt
      exact ⟨y, .roundest (by omega) hzeros hy, htext⟩

/-- Under a type of texts an integer becomes the text of the integer that stands for it. It is bound as its
own text would be exactly if it stands for itself, and two integers are bound alike exactly if they are
equal, or beyond 64 bits with a sign and have the same nearest double. -/
theorem convert?_text_of_toInt? {member : Option Json}
    (hword : ∃ word ∈ ["string", "date", "time", "datetime"], Json.IsWord member word)
    {n : Json.Number} {z : Int} (hz : n.toInt? = some z) :
    (∃ y, StandsFor z y ∧ (Rule.readType member).convert? (.number n) = some (.text y.repr)) ∧
      ((Rule.readType member).convert? (.number n) = (Rule.readType member).convert? (.string z.repr) ↔
        StandsFor z z) ∧
      ∀ n' z', n'.toInt? = some z' →
        ((Rule.readType member).convert? (.number n) = (Rule.readType member).convert? (.number n') ↔
          z = z' ∨ Int64.maxValue.toInt < z ∧ Alike z z'.toNat) := by
  have hconvert (n : Json.Number) : text.convert? (.number n) = some (.text n.toValue.toText) := rfl
  obtain ⟨y, hy, htext⟩ := exists_standsFor hz
  rw [Rule.readType_eq_text hword]
  refine ⟨⟨y, hy, by rw [hconvert, htext]⟩, ?_, fun n' z' hz' => ?_⟩
  · have hstring : text.convert? (.string z.repr) = some (.text z.repr) := rfl
    rw [hconvert, htext, hstring]
    simp only [Option.some.injEq, Value.text.injEq, Decimal.repr_injective.eq_iff]
    exact ⟨fun h => h ▸ hy, fun h => hy.unique h⟩
  · obtain ⟨y', hy', htext'⟩ := exists_standsFor hz'
    simp only [hconvert, htext, htext', Option.some.injEq, Value.text.injEq, Decimal.repr_injective.eq_iff]
    constructor
    · rintro rfl
      exact hy.eq_or_alike hy'
    · rintro (rfl | ⟨hlt, halike⟩)
      · exact hy.unique hy'
      · exact (hy.of_alike hlt halike).unique hy'

/-- The largest integer of 64 bits is bound like the one before it, and not as its own text would be. -/
theorem convert?_text_of_toInt?_max :
    let type := Rule.readType (some (.string "Date"))
    type.convert? (.number (.unsigned 18446744073709551615)) =
        type.convert? (.number (.unsigned 18446744073709551614)) ∧
      type.convert? (.number (.unsigned 18446744073709551615)) ≠
        type.convert? (.string (Int.repr 18446744073709551615)) ∧
      type.convert? (.number (.signed (-5))) = type.convert? (.string (Int.repr (-5))) := by
  intro type
  have hword : ∃ word ∈ ["string", "date", "time", "datetime"], Json.IsWord (some (.string "Date")) word :=
    ⟨"date", by decide, "Date", rfl, rfl⟩
  obtain ⟨-, hexact, halike⟩ := convert?_text_of_toInt? hword
    (show (Json.Number.unsigned 18446744073709551615).toInt? = some 18446744073709551615 from rfl)
  obtain ⟨-, hexact', -⟩ := convert?_text_of_toInt? hword
    (show (Json.Number.signed (-5)).toInt? = some (-5) from rfl)
  refine ⟨(halike _ 18446744073709551614 rfl).mpr (Or.inr ⟨by decide, by decide, by decide +kernel⟩),
    fun h => ?_, hexact'.mpr (.same (by decide))⟩
  exact absurd ((hexact.mp h).thousand_dvd (by decide)) (by decide)

/-- Two integers that are bound as one text, which is that of neither. -/
theorem convert?_text_rounded :
    let type := Rule.readType (some (.string "string"))
    type.convert? (.number (.unsigned 18446744073709551615)) = some (.text "18446744073709552000") ∧
      type.convert? (.number (.unsigned 18446744073709551614)) = some (.text "18446744073709552000") ∧
      type.convert? (.string (Int.repr 18446744073709551615)) = some (.text "18446744073709551615") ∧
      "18446744073709552000" ≠ Int.repr 18446744073709551615 := by
  intro type
  have hmax : shortestText (Decimal.floatOfInt 18446744073709551615) = "18446744073709552000" := by
    decide +kernel
  have hbefore : shortestText (Decimal.floatOfInt 18446744073709551614) = "18446744073709552000" := by
    decide +kernel
  exact ⟨congrArg (fun s => some (Value.text s)) hmax, congrArg (fun s => some (Value.text s)) hbefore, rfl,
    by decide +kernel⟩

end WhereClause.DeclaredType
