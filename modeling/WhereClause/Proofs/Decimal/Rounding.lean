import Mathlib.Data.Nat.Log
import Mathlib.Tactic.Linarith
import Mathlib.Tactic.Ring
import WhereClause.Decimal.Shortest

/-! Rounding a large integer to the 53 bits of a double. Ties go to the even one of two neighbours, and every
integer rounds to one double. -/
namespace WhereClause
open Float.Model Float.Model.UnpackedFloat

namespace Binary

/-- What is kept of `x / unit` stands for it: whether there is a rest, and on which side of one half. -/
def Keeps (em : ExtendedMantissa) (unit x : Nat) : Prop :=
  match em.roundBit, em.stickyBit with
  | false, false => x = em.mantissa * unit
  | false, true => em.mantissa * unit < x ∧ 2 * x < (2 * em.mantissa + 1) * unit
  | true, false => 2 * x = (2 * em.mantissa + 1) * unit
  | true, true => (2 * em.mantissa + 1) * unit < 2 * x ∧ x < (em.mantissa + 1) * unit

/-- The multiple of a unit that is nearest to `x`, the even one halfway between two. -/
structure Nearest (r unit x : Nat) : Prop where
  le : 2 * r * unit ≤ 2 * x + unit
  ge : 2 * x ≤ (2 * r + 1) * unit
  even (h : 2 * r * unit = 2 * x + unit ∨ 2 * x = (2 * r + 1) * unit) : r % 2 = 0

section Rounding
variable {em : ExtendedMantissa} {unit x : Nat}

/-- A bit that is shifted out halves what is kept and joins the rest. -/
theorem Keeps.shiftRightOne (h : Keeps em unit x) (hunit : 0 < unit) :
    Keeps em.shiftRightOne (2 * unit) x := by
  obtain ⟨m, round, sticky⟩ := em
  have hbit : (1 != 0) = true := rfl
  obtain ⟨half, rfl | rfl⟩ := Nat.even_or_odd' m
  all_goals
    cases round <;> cases sticky <;>
      simp only [Keeps, ExtendedMantissa.shiftRightOne, Nat.mul_mod_right, Nat.mul_add_mod_self_left,
        Nat.mul_add_div, Nat.mul_div_right, Nat.zero_lt_succ, Nat.reduceMod, Nat.reduceDiv, bne_self_eq_false,
        Nat.add_zero, Bool.or_false, Bool.or_true, Bool.or_self, hbit] at h ⊢
  all_goals first | linarith | constructor <;> linarith

theorem Keeps.shiftRight (h : Keeps em unit x) (hunit : 0 < unit) (k : Nat) :
    Keeps (em >>> k) (2 ^ k * unit) x := by
  show Keeps (k.repeat ExtendedMantissa.shiftRightOne em) _ x
  induction k with
  | zero => simpa [Nat.repeat] using h
  | succ k ih =>
    rw [Nat.repeat, Nat.pow_succ', Nat.mul_assoc]
    exact ih.shiftRightOne (Nat.mul_pos (Nat.two_pow_pos k) hunit)

/-- Rounding what is kept gives the nearest multiple. -/
theorem Keeps.nearest (h : Keeps em unit x) (hunit : 0 < unit) : Nearest em.roundedMantissa unit x := by
  obtain ⟨m, round, sticky⟩ := em
  cases round <;> cases sticky <;>
    simp only [Keeps, ExtendedMantissa.roundedMantissa, ExtendedMantissa.accuracy,
      Accuracy.roundToNearestEven] at h ⊢
  case false.false => exact ⟨by linarith, by linarith, by rintro (h | h) <;> linarith⟩
  case false.true => exact ⟨by linarith, by linarith, by rintro (h | h) <;> linarith⟩
  case true.true => exact ⟨by linarith, by linarith, by rintro (h | h) <;> linarith⟩
  case true.false =>
    -- Halfway between two multiples, the upper one is taken if the lower one is odd.
    obtain ⟨half, rfl | rfl⟩ := Nat.even_or_odd' m
    · rw [Nat.mul_mod_right, Nat.add_zero]
      exact ⟨by linarith, by linarith, fun _ => Nat.mul_mod_right 2 half⟩
    · rw [Nat.mul_add_mod_self_left]
      exact ⟨by linarith, by linarith, fun _ => by omega⟩

theorem keeps_exact (m : Nat) : Keeps (.mk m false false) 1 m :=
  (Nat.mul_one m).symm

variable {r c : Nat}

theorem Nearest.of_mul (h : Nearest r (c * unit) (c * x)) (hc : 0 < c) : Nearest r unit x where
  le := Nat.le_of_mul_le_mul_left (by linarith [h.le]) hc
  ge := Nat.le_of_mul_le_mul_left (by linarith [h.ge]) hc
  even heq := h.even <| by
    rcases heq with heq | heq
    · exact Or.inl (by rw [Nat.mul_left_comm, heq]; ring)
    · exact Or.inr (by rw [Nat.mul_left_comm, heq]; ring)

end Rounding

/-- A mantissa of `53 + k` bits is cut to 53 bits by a shift of `k`. -/
theorem shiftToTargetExponent_eq {m : Nat} {exponent : Int} (k : Nat) (hlow : 2 ^ (52 + k) ≤ m)
    (hhigh : m < 2 ^ (53 + k)) (hexponent : -1074 ≤ exponent + k) :
    shiftToTargetExponent Format.binary64 m exponent .exact =
      (ExtendedMantissa.mk m false false >>> k, exponent + k) := by
  have hbits : m.log2 = 52 + k := by
    rw [Nat.log2_eq_iff (by have := Nat.two_pow_pos (52 + k); omega)]
    exact ⟨hlow, by rwa [Nat.add_right_comm]⟩
  have htarget : Format.binary64.targetExponent (totalExponent m exponent) = exponent + k := by
    have hmantissa : Format.binary64.mantissaBits = 53 := rfl
    have hmin : Format.binary64.minExponent = -1074 := rfl
    rw [Format.targetExponent, totalExponent, hbits, hmantissa, hmin]
    omega
  have hshift : (exponent + k - exponent).toNat = k := by omega
  rw [shiftToTargetExponent, htarget, shiftToExponent, hshift]
  rfl

/-- A double with all of its bits, the last of them worth four or more. -/
structure Coarse (b : Binary) : Prop where
  le_significand : 2 ^ 52 ≤ b.significand
  significand_lt : b.significand < 2 ^ 53
  two_le_exponent : 2 ≤ b.exponent
  closeBelow : b.closeBelow = decide (b.significand = 2 ^ 52)

/-- The integer that a double with a whole last bit is. -/
def value (b : Binary) : Nat :=
  b.significand * 2 ^ b.exponent.toNat

/-- A quarter of the last bit. -/
def grain (b : Binary) : Nat :=
  2 ^ (b.exponent - 2).toNat

/-- How far below the double integers still round to it. -/
def below (b : Binary) : Nat :=
  if b.closeBelow then b.grain else 2 * b.grain

/-- The integer rounds to the double. The two ends do so only if the significand is even. -/
structure RoundsFrom (b : Binary) (w : Nat) : Prop where
  value_le : b.value ≤ w + b.below
  le_value : w ≤ b.value + 2 * b.grain
  even (h : b.value = w + b.below ∨ w = b.value + 2 * b.grain) : b.significand % 2 = 0

theorem grain_of_exponent {b : Binary} {k : Nat} (h : b.exponent = k + 2) : b.grain = 2 ^ k := by
  rw [grain, h, Int.add_sub_cancel]
  rfl

theorem value_of_exponent {b : Binary} {k : Nat} (h : b.exponent = k + 2) :
    b.value = b.significand * 2 ^ (k + 2) := by
  rw [value, h]
  rfl

section Rounding
variable {b : Binary} {n k r : Nat} (h : Nearest r (2 ^ (k + 2)) n)
include h

/-- The nearest multiple takes 53 bits, or is the first that takes more. -/
theorem Nearest.bounds (hlow : 2 ^ 52 * 2 ^ (k + 2) ≤ n) (hhigh : n < 2 ^ 53 * 2 ^ (k + 2)) :
    2 ^ 52 ≤ r ∧ r ≤ 2 ^ 53 := by
  have hpos := Nat.two_pow_pos (k + 2)
  have hge := h.ge
  have hle := h.le
  generalize 2 ^ (k + 2) = unit at *
  constructor
  · by_contra hr
    nlinarith
  · by_contra hr
    nlinarith

/-- Within 53 bits the nearest multiple is the double that the integer rounds to. -/
theorem Nearest.roundsFrom (hlow : 2 ^ 52 * 2 ^ (k + 2) ≤ n) (hexponent : b.exponent = k + 2)
    (hr : b.significand = r) (hclose : b.closeBelow = decide (r = 2 ^ 52)) : b.RoundsFrom n := by
  obtain ⟨hle, hge, heven⟩ := h
  have hvalue := value_of_exponent hexponent
  have hgrain := grain_of_exponent hexponent
  have hpos := Nat.two_pow_pos k
  rw [hr] at hvalue
  rw [Nat.pow_add 2 k 2] at *
  by_cases hpow : r = 2 ^ 52
  · have hbelow : b.below = b.grain := if_pos (by simpa [hclose] using hpow)
    subst hpow
    exact ⟨by linarith, by linarith, fun _ => by rw [hr]; rfl⟩
  · have hbelow : b.below = 2 * b.grain := if_neg (by simpa [hclose] using hpow)
    refine ⟨by linarith, by linarith, fun heq => hr ▸ heven ?_⟩
    rcases heq with heq | heq
    · exact Or.inl (by linarith)
    · exact Or.inr (by linarith)

/-- Beyond 53 bits the double is the next power of two. -/
theorem Nearest.roundsFrom_pow (hhigh : n < 2 ^ 53 * 2 ^ (k + 2))
    (hexponent : b.exponent = (k + 1 : Nat) + 2) (hr : r = 2 ^ 53) (hb : b.significand = 2 ^ 52)
    (hclose : b.closeBelow = true) : b.RoundsFrom n := by
  have hle := h.le
  have hvalue := value_of_exponent hexponent
  have hgrain := grain_of_exponent hexponent
  have hbelow : b.below = b.grain := if_pos hclose
  rw [hb] at hvalue
  subst hr
  rw [Nat.pow_add 2 k 2] at *
  rw [Nat.pow_add 2 k 1] at hgrain
  rw [Nat.pow_add 2 (k + 1) 2, Nat.pow_add 2 k 1] at hvalue
  exact ⟨by linarith, by linarith, fun _ => by rw [hb]; rfl⟩

end Rounding

/-- Rounding an integer of `55 + k` bits to 53 bits. -/
theorem exists_round {n k : Nat} (hlow : 2 ^ 52 * 2 ^ (k + 2) ≤ n) (hhigh : n < 2 ^ 53 * 2 ^ (k + 2)) :
    ∃ b : Binary, ∃ hpos : 0 < b.significand,
    roundWithAccuracy Format.binary64 .positive (n <<< 53 * 10 ^ 0) (-53 + 0) .exact =
      .finite .positive b.significand b.exponent hpos ∧ b.Coarse ∧ b.RoundsFrom n := by
  -- The mantissa holds 53 bits more than the integer, all of them zero, so the first shift is never empty.
  obtain ⟨wide, hdef⟩ : ∃ wide, wide = n <<< 53 * 10 ^ 0 := ⟨_, rfl⟩
  have hwide : wide = 2 ^ 53 * n := by
    rw [hdef, Nat.shiftLeft_eq, Nat.pow_zero, Nat.mul_one, Nat.mul_comm]
  have hshift : shiftToTargetExponent Format.binary64 wide (-53 + 0) .exact =
      (ExtendedMantissa.mk wide false false >>> (53 + (k + 2)), ((k + 2 : Nat) : Int)) := by
    have hpow (i : Nat) : 2 ^ (i + (53 + (k + 2))) = 2 ^ 53 * (2 ^ i * 2 ^ (k + 2)) := by ring
    rw [shiftToTargetExponent_eq (53 + (k + 2))]
    · congr 1
      omega
    · rw [hwide, hpow]
      exact Nat.mul_le_mul_left _ hlow
    · rw [hwide, hpow]
      exact Nat.mul_lt_mul_of_pos_left hhigh (by decide)
    · omega
  have hnearest := ((keeps_exact wide).shiftRight Nat.one_pos (53 + (k + 2))).nearest (by simp)
  rw [← hdef, roundWithAccuracy, hshift]
  dsimp only
  generalize (ExtendedMantissa.mk wide false false >>> (53 + (k + 2))).roundedMantissa = r at *
  rw [Nat.mul_one, Nat.pow_add, hwide] at hnearest
  replace hnearest := hnearest.of_mul (by decide)
  obtain ⟨hle, hge⟩ := hnearest.bounds hlow hhigh
  -- Rounding up may carry into a bit too many, and only then the second shift moves anything.
  rcases Nat.lt_or_eq_of_le hge with hlt | rfl
  · have hsecond : shiftToTargetExponent Format.binary64 r (k + 2 : Nat) .exact =
        (ExtendedMantissa.mk r false false, ((k + 2 : Nat) : Int)) :=
      shiftToTargetExponent_eq 0 hle hlt (by omega)
    have hpos : 0 < r := by omega
    rw [hsecond]
    refine ⟨⟨r, (k + 2 : Nat), decide (r = 2 ^ 52)⟩, hpos, dif_neg hpos.ne', ⟨hle, hlt, ?_, rfl⟩, ?_⟩
    · exact Int.ofNat_le.mpr (Nat.le_add_left 2 k)
    · exact hnearest.roundsFrom hlow rfl rfl rfl
  · have hsecond : shiftToTargetExponent Format.binary64 (2 ^ 53) (k + 2 : Nat) .exact =
        (ExtendedMantissa.mk (2 ^ 52) false false, ((k + 3 : Nat) : Int)) :=
      shiftToTargetExponent_eq 1 (by decide) (by decide) (by omega)
    have hpos : 0 < 2 ^ 52 := by decide
    rw [hsecond]
    refine ⟨⟨2 ^ 52, (k + 3 : Nat), true⟩, hpos, dif_neg hpos.ne', ⟨Nat.le_refl _, ?_, ?_, rfl⟩, ?_⟩
    · exact Nat.pow_lt_pow_right (by decide) (by decide)
    · exact Int.ofNat_le.mpr (Nat.le_add_left 2 (k + 1))
    · exact hnearest.roundsFrom_pow hhigh rfl rfl rfl rfl

section Unique
variable {b b' : Binary} {w : Nat}

theorem Coarse.exists_exponent (hb : b.Coarse) : ∃ k : Nat, b.exponent = k + 2 :=
  ⟨(b.exponent - 2).toNat, by have := hb.two_le_exponent; omega⟩

theorem grain_pos (b : Binary) : 0 < b.grain :=
  Nat.two_pow_pos _

theorem Coarse.value_eq (hb : b.Coarse) : b.value = 4 * b.significand * b.grain := by
  obtain ⟨k, hk⟩ := hb.exists_exponent
  rw [value_of_exponent hk, grain_of_exponent hk]
  ring

theorem below_pos (b : Binary) : 0 < b.below := by
  have hpos := b.grain_pos
  rw [below]
  split <;> omega

theorem below_le (b : Binary) : b.below ≤ 2 * b.grain := by
  rw [below]
  split <;> omega

theorem Coarse.below_eq (hb : b.Coarse) :
    b.below = if b.significand = 2 ^ 52 then b.grain else 2 * b.grain := by
  rw [below, hb.closeBelow]
  simp only [decide_eq_true_eq]

theorem Coarse.lt_of_roundsFrom (hb : b.Coarse) (h : b.RoundsFrom w) : w < 2 ^ 56 * b.grain := by
  have hbound : b.significand * b.grain ≤ 2 ^ 53 * b.grain :=
    Nat.mul_le_mul_right _ (Nat.le_of_lt hb.significand_lt)
  have hhigh := h.le_value
  have hpos := b.grain_pos
  rw [hb.value_eq] at hhigh
  linarith

theorem Coarse.grain_le_of_roundsFrom (hb : b.Coarse) (h : b.RoundsFrom w) : b.grain ≤ w := by
  have hbound : 2 ^ 52 * b.grain ≤ b.significand * b.grain := Nat.mul_le_mul_right _ hb.le_significand
  have hbelow := b.below_le
  have hlow := h.value_le
  rw [hb.value_eq] at hlow
  linarith

/-- The double of a 64-bit integer is far from the largest ones. -/
theorem Coarse.exponent_le_of_lt (hb : b.Coarse) (h : b.RoundsFrom w) (hw : w < 2 ^ 64) :
    b.exponent ≤ 971 := by
  have hgrain := Nat.lt_of_le_of_lt (hb.grain_le_of_roundsFrom h) hw
  rw [grain] at hgrain
  have hexponent := (Nat.pow_lt_pow_iff_right (by decide)).mp hgrain
  omega

/-- No integer rounds to two doubles with different exponents. -/
theorem Coarse.exponent_le_of_roundsFrom (hb : b.Coarse) (hb' : b'.Coarse) (h : b.RoundsFrom w)
    (h' : b'.RoundsFrom w) : b'.exponent ≤ b.exponent := by
  by_contra hexponent
  have hdouble : 2 * b.grain ≤ b'.grain := by
    have := hb.two_le_exponent
    rw [grain, grain, ← Nat.pow_succ']
    exact Nat.pow_le_pow_right (by decide) (by omega)
  have hlt := hb.significand_lt
  have hhigh := hb.value_eq ▸ h.le_value
  have hlow := hb'.value_eq ▸ h'.value_le
  rw [hb'.below_eq] at hlow
  have hpos := b.grain_pos
  split at hlow
  · rename_i hpow
    rw [hpow] at hlow
    -- The two touch at most where the smaller one ends, and its significand is odd there.
    have hlast : b.significand + 1 = 2 ^ 53 := by
      by_contra hne
      have hbound : (b.significand + 2) * b.grain ≤ 2 ^ 53 * b.grain := Nat.mul_le_mul_right _ (by omega)
      linarith
    have hbound : (b.significand + 1) * b.grain = 2 ^ 53 * b.grain := by rw [hlast]
    have heven := h.even (Or.inr (by rw [hb.value_eq]; linarith))
    omega
  · have hbound : (b.significand + 1) * b.grain ≤ 2 ^ 53 * b.grain := Nat.mul_le_mul_right _ (by omega)
    have hbound' : (2 ^ 52 + 1) * b'.grain ≤ b'.significand * b'.grain :=
      Nat.mul_le_mul_right _ (by have := hb'.le_significand; omega)
    linarith

/-- Nor to two doubles with the same exponent. -/
theorem Coarse.significand_le_of_roundsFrom (hb : b.Coarse) (hb' : b'.Coarse) (hgrain : b'.grain = b.grain)
    (h : b.RoundsFrom w) (h' : b'.RoundsFrom w) : b'.significand ≤ b.significand := by
  by_contra hlt
  have hbelow := b'.below_le
  rw [hgrain] at hbelow
  have hhigh := h.le_value
  have hlow := h'.value_le
  rw [hb.value_eq] at hhigh
  rw [hb'.value_eq, hgrain] at hlow
  have hbound : (b.significand + 1) * b.grain ≤ b'.significand * b.grain := Nat.mul_le_mul_right _ (by omega)
  have hpos := b.grain_pos
  have hnext : b'.significand = b.significand + 1 := by
    by_contra hne
    have hbound : (b.significand + 2) * b.grain ≤ b'.significand * b.grain := Nat.mul_le_mul_right _ (by omega)
    linarith
  rw [hnext] at hlow
  have heven := h.even (Or.inr (by rw [hb.value_eq]; linarith))
  have heven' := h'.even (Or.inl (by rw [hb'.value_eq, hgrain, hnext]; linarith))
  omega

/-- An integer rounds to one double only. -/
theorem Coarse.eq_of_roundsFrom (hb : b.Coarse) (hb' : b'.Coarse) (h : b.RoundsFrom w)
    (h' : b'.RoundsFrom w) : b = b' := by
  have hexponent : b.exponent = b'.exponent :=
    Int.le_antisymm (hb'.exponent_le_of_roundsFrom hb h' h) (hb.exponent_le_of_roundsFrom hb' h h')
  have hgrain : b.grain = b'.grain := by rw [grain, grain, hexponent]
  have hsignificand : b.significand = b'.significand := Nat.le_antisymm
    (hb'.significand_le_of_roundsFrom hb hgrain h' h) (hb.significand_le_of_roundsFrom hb' hgrain.symm h h')
  have hclose : b.closeBelow = b'.closeBelow := by rw [hb.closeBelow, hb'.closeBelow, hsignificand]
  obtain ⟨_, _, _⟩ := b
  obtain ⟨_, _, _⟩ := b'
  exact (Binary.mk.injEq ..).mpr ⟨hsignificand, hexponent, hclose⟩

end Unique

end Binary

end WhereClause
