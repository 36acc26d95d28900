import Mathlib.Data.Nat.Dist
import WhereClause.Proofs.Decimal.Rounding

/-! The shortest text of a large double: an integer with as many zeros at its end as any that rounds to the
double, and the nearest to it of those. -/
namespace WhereClause

/-- Of some integers one with the most zeros at its end, the nearest to `centre` of those, and the upper one
of two that are equally near. -/
structure Roundest (candidate : Nat → Prop) (centre y : Nat) : Prop where
  mem : candidate y
  zeros : ∀ k w, candidate w → 10 ^ k ∣ w → 10 ^ k ∣ y
  nearest : ∀ w, candidate w → (∀ k, 10 ^ k ∣ y → 10 ^ k ∣ w) →
    Nat.dist centre y < Nat.dist centre w ∨ Nat.dist centre y = Nat.dist centre w ∧ w ≤ y

namespace Roundest
variable {candidate : Nat → Prop} {centre y y' : Nat}

theorem eq (h : Roundest candidate centre y) (h' : Roundest candidate centre y') : y = y' := by
  have hle := h.nearest y' h'.mem fun k => h'.zeros k y h.mem
  have hge := h'.nearest y h.mem fun k => h.zeros k y' h'.mem
  omega

/-- Fewer candidates leave the roundest of them as it is. -/
theorem mono {fewer : Nat → Prop} (h : Roundest candidate centre y) (hmem : fewer y)
    (hfewer : ∀ w, fewer w → candidate w) : Roundest fewer centre y where
  mem := hmem
  zeros k w hw := h.zeros k w (hfewer w hw)
  nearest w hw := h.nearest w (hfewer w hw)

end Roundest

namespace Binary
variable {b : Binary} {k d w w' : Nat}

namespace Coarse

theorem step_eq (hb : b.Coarse) (k : Nat) : b.step k = 10 ^ k := by
  have htwo := hb.two_le_exponent
  have hnone : (2 - b.exponent).toNat = 0 := by omega
  rw [step, hnone]
  exact Nat.mul_one _

theorem quarter_eq (k : Nat) : b.quarter k = b.grain := by
  have hnone : (-(k : Int)).toNat = 0 := by omega
  rw [quarter, hnone]
  exact Nat.mul_one _

theorem low_mul_grain (hb : b.Coarse) : b.low * b.grain + b.below = b.value := by
  have hle := hb.le_significand
  rw [hb.value_eq, low, below]
  split
  · obtain ⟨i, hi⟩ : ∃ i, 4 * b.significand = i + 1 := ⟨4 * b.significand - 1, by omega⟩
    rw [hi, Nat.add_sub_cancel]
    ring
  · obtain ⟨i, hi⟩ : ∃ i, 4 * b.significand = i + 2 := ⟨4 * b.significand - 2, by omega⟩
    rw [hi, Nat.add_sub_cancel]
    ring

theorem high_mul_grain (hb : b.Coarse) : b.high * b.grain = b.value + 2 * b.grain := by
  rw [hb.value_eq, high]
  ring

/-- The test for a point of a grid is the one for the integer that it is. -/
theorem roundsFrom_iff (hb : b.Coarse) : b.roundsFrom k d = true ↔ b.RoundsFrom (d * 10 ^ k) := by
  have hlow := hb.low_mul_grain
  have hhigh := hb.high_mul_grain
  have hpos := b.grain_pos
  have hbelow := b.below_pos
  simp only [Binary.roundsFrom, hb.step_eq, quarter_eq, Bool.or_eq_true, Bool.and_eq_true, decide_eq_true_eq,
    beq_iff_eq]
  generalize d * 10 ^ k = point at *
  constructor
  · rintro (⟨h, h'⟩ | ⟨heven, h | h⟩)
    · exact ⟨by omega, by omega, by omega⟩
    · exact ⟨by omega, by omega, fun _ => heven⟩
    · exact ⟨by omega, by omega, fun _ => heven⟩
  · rintro ⟨h, h', heven⟩
    by_cases hend : b.value = point + b.below ∨ point = b.value + 2 * b.grain
    · exact Or.inr ⟨heven hend, by omega⟩
    · exact Or.inl ⟨by omega, by omega⟩

end Coarse

/-- What lies between a double and an integer that rounds to it rounds to it too. -/
theorem RoundsFrom.between (h : b.RoundsFrom w) (hw : b.value ≤ w' ∧ w' ≤ w ∨ w ≤ w' ∧ w' ≤ b.value) :
    b.RoundsFrom w' := by
  have hpos := b.grain_pos
  have hbelow := b.below_pos
  obtain ⟨hlow, hhigh, heven⟩ := h
  exact ⟨by omega, by omega, fun hend => heven (by omega)⟩

theorem RoundsFrom.value (b : Binary) : b.RoundsFrom b.value := by
  have hpos := b.grain_pos
  have hbelow := b.below_pos
  exact ⟨by omega, by omega, by omega⟩

namespace Coarse

/-- Around the double stand two points of a grid, and the rest lie behind them. -/
theorem between_points (b : Binary) (k : Nat) : b.value / 10 ^ k * 10 ^ k ≤ b.value ∧
    b.value < (b.value / 10 ^ k + 1) * 10 ^ k ∧
    ∀ d, d * 10 ^ k ≤ b.value / 10 ^ k * 10 ^ k ∨ (b.value / 10 ^ k + 1) * 10 ^ k ≤ d * 10 ^ k := by
  have hpos : 0 < 10 ^ k := Nat.pow_pos (by decide)
  refine ⟨Nat.div_mul_le_self _ _, ?_, fun d => ?_⟩
  · rw [Nat.mul_comm]
    exact Nat.lt_mul_div_succ _ hpos
  · rcases Nat.lt_or_ge (b.value / 10 ^ k) d with h | h
    · exact Or.inr (Nat.mul_le_mul_right _ h)
    · exact Or.inl (Nat.mul_le_mul_right _ h)

/-- The point that a grid offers rounds to the double, and is the nearest to it that does. -/
theorem nearest_of_onGrid? (hb : b.Coarse) (h : b.onGrid? k = some d) : b.RoundsFrom (d * 10 ^ k) ∧
    ∀ d', b.RoundsFrom (d' * 10 ^ k) →
      Nat.dist b.value (d * 10 ^ k) < Nat.dist b.value (d' * 10 ^ k) ∨
      Nat.dist b.value (d * 10 ^ k) = Nat.dist b.value (d' * 10 ^ k) ∧ d' * 10 ^ k ≤ d * 10 ^ k := by
  obtain ⟨hle, hlt, hrest⟩ := between_points b k
  have hnext : (b.value / 10 ^ k + 1) * 10 ^ k = b.value / 10 ^ k * 10 ^ k + 10 ^ k := Nat.succ_mul _ _
  have hhalf : (2 * (b.value / 10 ^ k) + 1) * 10 ^ k = 2 * (b.value / 10 ^ k * 10 ^ k) + 10 ^ k := by ring
  simp only [onGrid?, hb.step_eq, quarter_eq, ← hb.value_eq] at h
  simp only [Nat.dist]
  split at h
  case h_1 hbelow habove =>
    rw [hb.roundsFrom_iff] at hbelow habove
    split at h
    all_goals
      obtain rfl := Option.some.inj h
      refine ⟨‹_›, fun d' _ => ?_⟩
      have hd' := hrest d'
      omega
  case h_2 hbelow habove =>
    obtain rfl := Option.some.inj h
    refine ⟨hb.roundsFrom_iff.mp hbelow, fun d' hd' => ?_⟩
    rcases hrest d' with hside | hside
    · omega
    · rw [hb.roundsFrom_iff.mpr (hd'.between (Or.inl ⟨Nat.le_of_lt hlt, hside⟩))] at habove
      cases habove
  case h_3 hbelow habove =>
    obtain rfl := Option.some.inj h
    refine ⟨hb.roundsFrom_iff.mp habove, fun d' hd' => ?_⟩
    rcases hrest d' with hside | hside
    · rw [hb.roundsFrom_iff.mpr (hd'.between (Or.inr ⟨hside, hle⟩))] at hbelow
      cases hbelow
    · omega
  case h_4 => cases h

/-- A grid that offers no point has none that rounds to the double. -/
theorem not_roundsFrom_of_onGrid? (hb : b.Coarse) (h : b.onGrid? k = none) (d : Nat) :
    ¬ b.RoundsFrom (d * 10 ^ k) := by
  intro hd
  obtain ⟨hle, hlt, hrest⟩ := between_points b k
  simp only [onGrid?, hb.step_eq, quarter_eq, ← hb.value_eq] at h
  split at h <;> cases h
  rename_i hbelow habove
  rcases hrest d with hd' | hd'
  · rw [hb.roundsFrom_iff.mpr (hd.between (Or.inr ⟨hd', hle⟩))] at hbelow
    cases hbelow
  · rw [hb.roundsFrom_iff.mpr (hd.between (Or.inl ⟨Nat.le_of_lt hlt, hd'⟩))] at habove
    cases habove

/-- The search ends at the first grid that offers a point, at the latest with the integers. -/
theorem search_eq (hb : b.Coarse) (place : Nat) {fuel : Nat} (hfuel : place < fuel) :
    ∃ k ≤ place, ∃ d, b.search place fuel = ⟨d, k⟩ ∧ b.onGrid? k = some d ∧
      ∀ i, k < i → i ≤ place → b.onGrid? i = none := by
  induction fuel generalizing place with
  | zero => cases hfuel
  | succ fuel ih =>
    rw [search]
    cases hpoint : b.onGrid? place with
    | some d => exact ⟨place, Nat.le_refl _, d, rfl, hpoint, fun i hlt hle => by omega⟩
    | none =>
      cases place with
      | zero =>
        -- Among the integers the double itself is a point that rounds to it.
        refine absurd (RoundsFrom.value b) ?_
        simpa using hb.not_roundsFrom_of_onGrid? (k := 0) hpoint b.value
      | succ place =>
        have hfiner : ((place + 1 : Nat) : Int) - 1 = place := by omega
        obtain ⟨k, hk, d, hsearch, hd, hnone⟩ := ih place (Nat.lt_of_succ_lt_succ hfuel)
        refine ⟨k, Nat.le_succ_of_le hk, d, by rw [hfiner, hsearch], hd, fun i hlt hle => ?_⟩
        rcases Nat.lt_or_eq_of_le hle with hle | rfl
        · exact hnone i hlt (Nat.le_of_lt_succ hle)
        · exact hpoint

/-- The search starts where no coarser grid comes near the double. -/
theorem not_roundsFrom_beyond (hb : b.Coarse) {i : Nat} (hi : (Nat.toDigits 10 b.value).length < i)
    (d : Nat) : ¬ b.RoundsFrom (d * 10 ^ i) := by
  intro h
  have hlength := (Nat.length_toDigits_le_iff (by decide : 1 < 10) Nat.length_toDigits_pos).mp
    (Nat.le_refl (Nat.toDigits 10 b.value).length)
  have hpow : 10 * 10 ^ (Nat.toDigits 10 b.value).length ≤ 10 ^ i := by
    rw [← Nat.pow_succ']
    exact Nat.pow_le_pow_right (by decide) hi
  have hgrain : 2 ^ 52 * b.grain ≤ b.significand * b.grain := Nat.mul_le_mul_right _ hb.le_significand
  have hpos := b.grain_pos
  have hvalue := hb.value_eq
  have hbelow := b.below_le
  rcases Nat.eq_zero_or_pos d with rfl | hd
  · have hlow := h.value_le
    linarith
  · have hhigh := h.le_value
    have hpoint : 10 ^ i ≤ d * 10 ^ i := Nat.le_mul_of_pos_left _ hd
    linarith

/-- The shortest decimal is the roundest of the integers that round to the double. -/
theorem roundest_shortest (hb : b.Coarse) :
    ∃ d k : Nat, b.shortest = ⟨d, k⟩ ∧ Roundest b.RoundsFrom b.value (d * 10 ^ k) := by
  have htwo := hb.two_le_exponent
  have hwhole : b.significand * Nat.pow 2 b.exponent.toNat / Nat.pow 2 (-b.exponent).toNat = b.value := by
    have hnone : (-b.exponent).toNat = 0 := by omega
    rw [hnone]
    exact Nat.div_one _
  obtain ⟨k, hk, d, hsearch, hpoint, hnone⟩ :=
    hb.search_eq (Nat.toDigits 10 b.value).length (Nat.lt_add_of_pos_right (by decide : 0 < 1074))
  obtain ⟨hrounds, hnearest⟩ := hb.nearest_of_onGrid? hpoint
  refine ⟨d, k, by rw [shortest, hwhole, hsearch], hrounds, ?_, ?_⟩
  · rintro i w hw ⟨d', rfl⟩
    rw [Nat.mul_comm (10 ^ i)] at hw
    rcases Nat.lt_or_ge k i with hki | hik
    · rcases Nat.lt_or_ge (Nat.toDigits 10 b.value).length i with hi | hi
      · exact absurd hw (hb.not_roundsFrom_beyond hi d')
      · exact absurd hw (hb.not_roundsFrom_of_onGrid? (hnone i hki hi) d')
    · exact Dvd.dvd.mul_left (Nat.pow_dvd_pow 10 hik) d
  · intro w hw hzeros
    obtain ⟨d', rfl⟩ := hzeros k (Dvd.intro_left d rfl)
    rw [Nat.mul_comm (10 ^ k)] at hw ⊢
    exact hnearest d' hw

end Coarse

end Binary

/-- With no digits after the point, positional notation is that of an integer. -/
theorem Decimal.positional_natCast {d k : Nat} (hd : 0 < d) :
    positional ⟨d, k⟩ = (d * 10 ^ k).repr := by
  have hplaces : (-(k : Int)).toNat = 0 := by omega
  have hdigits : Nat.toDigits 10 (d * 10 ^ k) = Nat.toDigits 10 d ++ List.replicate k '0' := by
    induction k with
    | zero => simp
    | succ k ih =>
      have hpos : 0 < d * 10 ^ k := Nat.mul_pos hd (Nat.pow_pos (by decide))
      have happend := Nat.toDigits_append_toDigits (by decide : 1 < 10) hpos (by decide : 0 < 10)
      rw [Nat.toDigits_zero, ih (by omega), Nat.add_zero] at happend
      rw [Nat.pow_succ', Nat.mul_left_comm, ← happend, List.replicate_succ', List.append_assoc]
  rw [positional]
  simp only [hplaces, if_true, Int.toNat_natCast]
  rw [← hdigits]
  rfl

end WhereClause
