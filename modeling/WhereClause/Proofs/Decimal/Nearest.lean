import WhereClause.Decimal.Reading
import WhereClause.Proofs.Decimal.Rounding

/-! The double nearest to a large integer, from its bits to its text. -/
namespace WhereClause
open Float.Model Float.Model.UnpackedFloat

namespace Binary

/-- The double of a significand and an exponent. -/
def toFloat (b : Binary) (hpos : 0 < b.significand) : Float :=
  .ofModel (.pack (.finite .positive b.significand b.exponent hpos))

variable {b : Binary} (hpos : 0 < b.significand)

theorem Coarse.log2_significand (hb : b.Coarse) : b.significand.log2 = 52 :=
  (Nat.log2_eq_iff (Nat.ne_of_gt (Nat.lt_of_lt_of_le (by decide) hb.le_significand))).mpr
    ⟨hb.le_significand, hb.significand_lt⟩

/-- The sign, the exponent and the significand side by side. -/
theorem toNat_packComponents (exponent : BitVec 11) (mantissa : BitVec 52) :
    (packComponents Format.binary64 .positive exponent mantissa).toNat =
      2 ^ 52 * exponent.toNat + mantissa.toNat := by
  show ((0#1 ++ exponent) ++ mantissa).toNat = _
  rw [BitVec.toNat_append, BitVec.toNat_append, ← Nat.shiftLeft_add_eq_or_of_lt mantissa.isLt]
  simp [Nat.shiftLeft_eq, Nat.mul_comm]

theorem biased_eq (e : Int) :
    e + Format.binary64.exponentBias + Format.binary64.mantissaBitsWithoutImplicit = e + 1075 :=
  Int.add_assoc e 1023 52

/-- The exponent is stored with a bias, and stays clear of the two exponents that mean something else. -/
theorem Coarse.toNat_biased (hb : b.Coarse) (hexponent : b.exponent ≤ 971) :
    (BitVec.ofNat 11 (b.exponent + 1075).toNat).toNat = (b.exponent + 1075).toNat := by
  have htwo := hb.two_le_exponent
  rw [BitVec.toNat_ofNat]
  exact Nat.mod_eq_of_lt (by omega)

/-- A number becomes infinite if its exponent has no room, and has no exponent if its significand is
short. -/
theorem pack_finite :
    UnpackedFloat.pack Format.binary64 (.finite .positive b.significand b.exponent hpos) =
      if 2 ^ 11 ≤ (b.exponent + 1075).toNat + 1 then packedInfinity Format.binary64 .positive
      else if b.significand.log2 + 1 = 53 then
        packComponents Format.binary64 .positive (BitVec.ofNat _ (b.exponent + 1075).toNat)
          (BitVec.ofNat _ b.significand)
      else packComponents Format.binary64 .positive 0#_ (BitVec.ofNat _ b.significand) := by
  rw [← biased_eq]
  rfl

theorem Coarse.pack_eq (hb : b.Coarse) (hexponent : b.exponent ≤ 971) :
    UnpackedFloat.pack Format.binary64 (.finite .positive b.significand b.exponent hpos) =
      packComponents Format.binary64 .positive (BitVec.ofNat _ (b.exponent + 1075).toNat)
        (BitVec.ofNat _ b.significand) := by
  have htwo := hb.two_le_exponent
  have hfits : ¬ 2 ^ 11 ≤ (b.exponent + 1075).toNat + 1 := by omega
  rw [pack_finite, hb.log2_significand, if_neg hfits, if_pos rfl]

theorem pack_eq_infinity (hexponent : 971 < b.exponent) :
    UnpackedFloat.pack Format.binary64 (.finite .positive b.significand b.exponent hpos) =
      packedInfinity Format.binary64 .positive := by
  have hlarge : 2 ^ 11 ≤ (b.exponent + 1075).toNat + 1 := by omega
  rw [pack_finite, if_pos hlarge]

theorem toNat_toBits : (b.toFloat hpos).toBits.toNat =
    (UnpackedFloat.pack Format.binary64 (.finite .positive b.significand b.exponent hpos)).toNat :=
  rfl

theorem Coarse.toNat_toBits (hb : b.Coarse) (hexponent : b.exponent ≤ 971) :
    (b.toFloat hpos).toBits.toNat = 2 ^ 52 * (b.exponent + 1075).toNat + (b.significand - 2 ^ 52) := by
  have htwo := hb.two_le_exponent
  have hle := hb.le_significand
  have hlt := hb.significand_lt
  have hfraction : (BitVec.ofNat 52 b.significand).toNat = b.significand - 2 ^ 52 := by
    rw [BitVec.toNat_ofNat]
    omega
  rw [Binary.toNat_toBits, hb.pack_eq hpos hexponent]
  exact (toNat_packComponents _ _).trans (by rw [hb.toNat_biased hexponent, hfraction])

/-- A double is read back from its bits. -/
theorem Coarse.ofFloat_toFloat (hb : b.Coarse) (hexponent : b.exponent ≤ 971) :
    ofFloat (b.toFloat hpos) = b := by
  have hbits := hb.toNat_toBits hpos hexponent
  obtain ⟨hle, hlt, htwo, hclose⟩ := hb
  have hlast : (b.toFloat hpos).toBits.toNat % Nat.pow 2 52 = b.significand - 2 ^ 52 := by
    rw [hbits, show Nat.pow 2 52 = 2 ^ 52 from rfl]
    omega
  have hfirst : (b.toFloat hpos).toBits.toNat / Nat.pow 2 52 % Nat.pow 2 11 = (b.exponent + 1075).toNat := by
    rw [hbits, show Nat.pow 2 52 = 2 ^ 52 from rfl, show Nat.pow 2 11 = 2 ^ 11 from rfl]
    omega
  rw [ofFloat]
  simp only [hlast, hfirst]
  rw [if_neg (by omega)]
  obtain ⟨m, e, close⟩ := b
  have hsignificand : Nat.pow 2 52 + (m - 2 ^ 52) = m := Nat.add_sub_of_le hle
  have hexp : (((e + 1075).toNat : Nat) : Int) - 1075 = e := by
    have : 2 ≤ e := htwo
    omega
  have hclose' : (decide (m - 2 ^ 52 = 0) && decide (1 < (e + 1075).toNat)) = close := by
    have : 2 ≤ e := htwo
    have : 2 ^ 52 ≤ m := hle
    have hbiased : 1 < (e + 1075).toNat := by omega
    rw [decide_eq_true hbiased, Bool.and_true]
    refine Eq.trans (decide_eq_decide.mpr ?_) hclose.symm
    show m - 2 ^ 52 = 0 ↔ m = 2 ^ 52
    omega
  rw [hsignificand, hexp, hclose']

/-- Beyond the exponents of doubles there is only infinity. -/
theorem exponent_ofFloat_toFloat (hexponent : 971 < b.exponent) :
    (ofFloat (b.toFloat hpos)).exponent = 972 := by
  rw [ofFloat, Binary.toNat_toBits, pack_eq_infinity hpos hexponent]
  rfl

theorem exists_unpack_eq {x : BitVec Format.binary64.numBits} (hall : unpackExponent x ≠ -1#11)
    (hzero : unpackExponent x ≠ 0#11) :
    ∃ sign m e h, UnpackedFloat.unpack Format.binary64 x = .finite sign m e h :=
  ⟨_, _, _, _, (if_neg hall).trans (if_neg hzero)⟩

/-- Unpacked, the double is finite and not zero. -/
theorem Coarse.unpack_eq (hb : b.Coarse) (hexponent : b.exponent ≤ 971) :
    ∃ sign m e h, (b.toFloat hpos).toModel.unpack = .finite sign m e h := by
  have htwo := hb.two_le_exponent
  have hbiased := hb.toNat_biased hexponent
  have hnotall : BitVec.ofNat 11 (b.exponent + 1075).toNat ≠ -1#11 := by
    intro h
    have hall : (-1#11).toNat = 2047 := rfl
    rw [h] at hbiased
    omega
  have hnotzero : BitVec.ofNat 11 (b.exponent + 1075).toNat ≠ 0#11 := by
    intro h
    have hzero : (0#11).toNat = 0 := rfl
    rw [h] at hbiased
    omega
  have hunpack : (b.toFloat hpos).toModel.unpack = UnpackedFloat.unpack Format.binary64
      (UnpackedFloat.pack Format.binary64 (.finite .positive b.significand b.exponent hpos)) := rfl
  rw [hunpack, hb.pack_eq hpos hexponent]
  refine exists_unpack_eq ?_ ?_
  · rwa [unpackExponent_packComponents]
  · rwa [unpackExponent_packComponents]

/-- The text of a double is that of its shortest decimal. -/
theorem Coarse.shortestText_toFloat (hb : b.Coarse) (hexponent : b.exponent ≤ 971) :
    shortestText (b.toFloat hpos) = b.shortest.positional := by
  obtain ⟨sign, m, e, h, hunpack⟩ := hb.unpack_eq hpos hexponent
  have hnan : (b.toFloat hpos).isNaN = false := by rw [Float.isNaN, Float.Model.isNaN, hunpack]; rfl
  have hinf : (b.toFloat hpos).isInf = false := by rw [Float.isInf, Float.Model.isInf, hunpack]; rfl
  have hzero : (b.toFloat hpos == 0) = false := by
    have hunpack' : (0 : Float).toModel.unpack = .zero .positive := by rfl
    show UnpackedFloat.beq (b.toFloat hpos).toModel.unpack (0 : Float).toModel.unpack = false
    rw [hunpack, hunpack']
    cases sign <;> rfl
  have hsign : ¬ (b.toFloat hpos).toBits.toNat / Nat.pow 2 63 = 1 := by
    have := hb.significand_lt
    rw [hb.toNat_toBits hpos hexponent, show Nat.pow 2 63 = 2 ^ 63 from rfl]
    omega
  simp only [shortestText, hnan, hinf, hzero, if_neg hsign, hb.ofFloat_toFloat hpos hexponent, Bool.false_eq_true,
    if_false]

end Binary

namespace Decimal
open Binary
variable {b : Binary} {n w : Nat}

theorem floatOfInt_natCast (n : Nat) : floatOfInt n = toFloat ⟨n, 0⟩ := by
  have hsign : decide ((n : Int) < 0) = false := decide_eq_false (by omega)
  rw [floatOfInt, hsign]
  rfl

/-- A large integer is scaled by a power of two and rounded once. -/
theorem floatOfInt_eq {n : Nat} (hn : 2 ^ 54 ≤ n) (hlength : (Nat.toDigits 10 n).length ≤ 400) :
    floatOfInt n = .ofModel (.pack (roundWithAccuracy Format.binary64 .positive (n <<< 53 * 10 ^ 0)
      (-53 + 0) .exact)) := by
  have hzero : n ≠ 0 := by omega
  have hsmall : ¬ (n = 0 ∨ ((Nat.toDigits 10 n).length : Int) + 0 < -400) := by omega
  have hlarge : ¬ 400 < ((Nat.toDigits 10 n).length : Int) + 0 := by omega
  have hfast : ¬ (n < 2 ^ 53 ∧ 0 ≤ 22) := by omega
  have hnotbeyond : ¬ (0 : Int) > 2 ^ Format.binary64.exponentBits := by decide
  have hnotbelow : ¬ (0 : Int) < -(2 ^ Format.binary64.exponentBits + (n.log2 : Int)) := by
    show ¬ (0 : Int) < -(2 ^ 11 + (n.log2 : Int))
    omega
  rw [floatOfInt_natCast, toFloat]
  dsimp only
  rw [if_neg hsmall, if_neg hlarge]
  show Float.ofScientific n false 0 = _
  rw [Float.ofScientific, dif_neg hfast]
  show Float.ofModel (.pack (UnpackedFloat.ofScientific Format.binary64 n 0)) = _
  rw [UnpackedFloat.ofScientific, dif_neg hzero, if_neg hnotbeyond, if_neg hnotbelow,
    if_pos (Int.le_refl 0)]
  rfl

/-- An integer of more digits than any double has is infinite. -/
theorem exponent_floatOfInt {n : Nat} (hlength : 400 < (Nat.toDigits 10 n).length) :
    (ofFloat (floatOfInt n)).exponent = 972 := by
  have hzero : n ≠ 0 := by rintro rfl; simp at hlength
  have hsmall : ¬ (n = 0 ∨ ((Nat.toDigits 10 n).length : Int) + 0 < -400) := by omega
  have hlarge : 400 < ((Nat.toDigits 10 n).length : Int) + 0 := by omega
  have hinfinite : Binary.ofFloat (Float.ofScientific 1 false 400) = ⟨2 ^ 52, 972, true⟩ := by decide +kernel
  rw [floatOfInt_natCast, toFloat]
  dsimp only
  rw [if_neg hsmall, if_pos hlarge, hinfinite]

/-- A decimal digit holds more than three bits. -/
theorem length_toDigits_le {i k : Nat} (hk : 0 < k) (hi : i ≤ 3 * k) (hn : n < 2 ^ i) :
    (Nat.toDigits 10 n).length ≤ k := by
  rw [Nat.length_toDigits_le_iff (by decide) hk]
  calc n < 2 ^ i := hn
    _ ≤ 2 ^ (3 * k) := Nat.pow_le_pow_right (by decide) hi
    _ = 8 ^ k := Nat.pow_mul 2 3 k
    _ ≤ 10 ^ k := Nat.pow_le_pow_left (by decide) k

/-- A large integer gives a double that it rounds to. -/
theorem exists_toFloat (hn : 2 ^ 54 ≤ n) (hlength : (Nat.toDigits 10 n).length ≤ 400) :
    ∃ b : Binary, ∃ hpos : 0 < b.significand,
      floatOfInt n = b.toFloat hpos ∧ b.Coarse ∧ b.RoundsFrom n := by
  have hne : n ≠ 0 := by omega
  have hbits : 54 ≤ n.log2 := (Nat.le_log2 hne).mpr hn
  obtain ⟨k, hk⟩ : ∃ k, n.log2 = k + 54 := ⟨n.log2 - 54, by omega⟩
  obtain ⟨hlow, hhigh⟩ := (Nat.log2_eq_iff hne).mp hk
  have hpow (i : Nat) : 2 ^ i * 2 ^ (k + 2) = 2 ^ (k + (i + 2)) := by ring
  obtain ⟨b, hpos, hround, hb, hrounds⟩ :=
    exists_round ((hpow 52).trans_le hlow) (hhigh.trans_eq (hpow 53).symm)
  exact ⟨b, hpos, by rw [floatOfInt_eq hn hlength, hround, Binary.toFloat], hb, hrounds⟩

/-- Of the large integers those give a double that round to it. -/
theorem floatOfInt_eq_toFloat_iff (hpos : 0 < b.significand) (hb : b.Coarse)
    (hexponent : b.exponent ≤ 971) (hw : 2 ^ 54 ≤ w) : floatOfInt w = b.toFloat hpos ↔ b.RoundsFrom w := by
  constructor
  · intro h
    have hread := hb.ofFloat_toFloat hpos hexponent
    rw [← h] at hread
    by_cases hlength : (Nat.toDigits 10 w).length ≤ 400
    · obtain ⟨b', hpos', hfloat, hb', hrounds⟩ := exists_toFloat hw hlength
      rw [hfloat] at hread
      by_cases hexponent' : b'.exponent ≤ 971
      · rw [hb'.ofFloat_toFloat hpos' hexponent'] at hread
        rwa [← hread]
      · -- What is too large becomes infinity, whose exponent no double has.
        have hinfinite := exponent_ofFloat_toFloat hpos' (Int.not_le.mp hexponent')
        rw [hread] at hinfinite
        omega
    · have hinfinite := exponent_floatOfInt (Nat.not_le.mp hlength)
      rw [hread] at hinfinite
      omega
  · intro h
    have hlength : (Nat.toDigits 10 w).length ≤ 400 := by
      have hlt := hb.lt_of_roundsFrom h
      rw [grain, ← Nat.pow_add] at hlt
      exact length_toDigits_le (by decide) (by omega) hlt
    obtain ⟨b', hpos', hfloat, hb', hrounds⟩ := exists_toFloat hw hlength
    obtain rfl := hb.eq_of_roundsFrom hb' h hrounds
    exact hfloat

end Decimal

end WhereClause
