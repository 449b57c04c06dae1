import KLambda.Proofs.Rounding

/-!
Decimals read as doubles. A canonical magnitude survives packing, whole numbers that fit a mantissa
and the tabulated powers of ten are exact, and so a decimal is read as the double in whose rounding
interval it lies, whichever way it is computed.
-/
namespace KLambda.Number

open Float.Model (Format UnpackedFloat totalExponent)
open Float.Model.UnpackedFloat

variable {m n : Nat} {e : Int} {d : Dyadic}

theorem finite_congr {s s' : UnpackedFloat.Sign} {m m' : Nat} {e e' : Int} (hs : s = s')
    (hm : m = m') (he : e = e') (h : 0 < m) (h' : 0 < m') :
    UnpackedFloat.finite s m e h = .finite s' m' e' h' := by
  subst hs hm he
  rfl

/-- The first bit of a full mantissa, which is not packed, in front of the others. -/
theorem toNat_one_append (v : BitVec Format.binary64.mantissaBitsWithoutImplicit) :
    (1#1 ++ v).toNat = 2 ^ 52 + v.toNat := by
  have hor := Nat.two_pow_add_eq_or_of_lt v.isLt 1
  rw [BitVec.toNat_append]
  exact hor.symm

theorem toNat_exponent {b : Nat} (hb : b < 2048) :
    (BitVec.ofNat Format.binary64.exponentBits b).toNat = b := by
  rw [BitVec.toNat_ofNat]
  exact Nat.mod_eq_of_lt hb

theorem toNat_mantissa (m : Nat) :
    (BitVec.ofNat Format.binary64.mantissaBitsWithoutImplicit m).toNat = m % 2 ^ 52 := by
  rw [BitVec.toNat_ofNat]

/-- A full mantissa is packed without its first bit. -/
theorem unpack_full (s : UnpackedFloat.Sign) (h : 0 < m) (hm : 2 ^ 52 ≤ m) (hlt : m < 2 ^ 53)
    {b : Nat} (hb : 0 < b) (hb' : b < 2047) :
    UnpackedFloat.unpack Format.binary64 (packComponents Format.binary64 s
      (BitVec.ofNat _ b) (BitVec.ofNat _ m)) = .finite s m ((b : Int) - 1075) h := by
  have hx := toNat_exponent (b := b) (by omega)
  have hone : BitVec.ofNat Format.binary64.exponentBits b ≠ -1#_ := by
    rw [ne_ones_iff, hx]
    exact hb'
  have hzero : BitVec.ofNat Format.binary64.exponentBits b ≠ 0#_ := by
    intro h
    rw [h] at hx
    have : (BitVec.ofNat Format.binary64.exponentBits 0).toNat = 0 := rfl
    omega
  unfold UnpackedFloat.unpack
  simp only [unpackExponent_packComponents, unpackMantissa_packComponents,
    unpackSign_packComponents, Sign.ofBitVec_toBitVec]
  rw [if_neg hone, if_neg hzero]
  refine finite_congr rfl ?_ ?_ _ _
  · rw [toNat_one_append, toNat_mantissa]
    omega
  · rw [hx]
    rfl

theorem unpack_short (s : UnpackedFloat.Sign) (h : 0 < m) (hlt : m < 2 ^ 52) :
    UnpackedFloat.unpack Format.binary64 (packComponents Format.binary64 s
      0#_ (BitVec.ofNat _ m)) = .finite s m (-1074) h := by
  have hm : BitVec.ofNat Format.binary64.mantissaBitsWithoutImplicit m ≠ 0#_ := by
    intro hz
    have := toNat_mantissa m
    rw [hz, Nat.mod_eq_of_lt hlt] at this
    have h0 : (BitVec.ofNat Format.binary64.mantissaBitsWithoutImplicit 0).toNat = 0 := rfl
    omega
  unfold UnpackedFloat.unpack
  simp only [unpackExponent_packComponents, unpackMantissa_packComponents,
    unpackSign_packComponents, Sign.ofBitVec_toBitVec]
  rw [if_neg (by decide), if_pos trivial, dif_neg hm]
  refine finite_congr rfl ?_ ?_ _ _
  · rw [toNat_mantissa, Nat.mod_eq_of_lt hlt]
  · rfl

namespace Dyadic

/-- The magnitude with a sign, as an unpacked double. -/
def unpacked (d : Dyadic) (hd : d.Canonical) (s : UnpackedFloat.Sign) : UnpackedFloat :=
  .finite s d.significand d.exponent hd.pos

theorem unpack_pack (hd : d.Canonical) (s : UnpackedFloat.Sign) :
    (Float.Model.pack (d.unpacked hd s)).unpack = d.unpacked hd s := by
  obtain ⟨hpos, hlt, hmin, hfull, hbound⟩ := hd
  have hbias : d.exponent + (Format.binary64.exponentBias : Int) +
      (Format.binary64.mantissaBitsWithoutImplicit : Int) = d.exponent + 1075 := by
    rw [show (Format.binary64.exponentBias : Int) = 1023 from rfl, Int.add_assoc]
    rfl
  rw [Number.unpack_pack]
  unfold unpacked UnpackedFloat.pack
  simp only [hbias]
  rw [if_neg (by omega)]
  split
  · rename_i hl
    have hl : d.significand.log2 + 1 = 53 := hl
    have hm : 2 ^ 52 ≤ d.significand := (Nat.le_log2 hpos.ne').1 (by omega)
    rw [unpack_full s hpos hm hlt (by omega) (by omega)]
    exact finite_congr rfl rfl (by omega) _ _
  · rename_i hl
    have hl : ¬ d.significand.log2 + 1 = 53 := hl
    have hm : d.significand < 2 ^ 52 := by
      by_contra hm
      have h₁ : 52 ≤ d.significand.log2 := (Nat.le_log2 hpos.ne').2 (by omega)
      have h₂ := log2_lt_of_lt hlt (by omega)
      omega
    rw [unpack_short s hpos hm]
    exact finite_congr rfl rfl (by omega) _ _

/-- The value of the magnitude. -/
def value (d : Dyadic) : ℚ := d.significand * 2 ^ d.exponent

theorem contains_value (hd : d.Canonical) : d.interval.Contains d.value := by
  have hu : (0 : ℚ) < 2 ^ d.exponent / 4 := by positivity
  have hm : (d.interval.mid : ℚ) * (2 ^ d.exponent / 4) = d.value := by
    simp only [interval, value]
    push_cast
    ring
  have hlow : (d.interval.low : ℚ) < d.interval.mid := by
    have : d.interval.low < d.interval.mid := by
      have := hd.pos
      simp only [interval]
      split <;> omega
    exact_mod_cast this
  have hhigh : (d.interval.mid : ℚ) < d.interval.high := by
    have : d.interval.mid < d.interval.high := by
      simp only [interval]
      omega
    exact_mod_cast this
  unfold Interval.Contains
  rw [unit_interval, ← hm]
  have h₁ := mul_lt_mul_of_pos_right hlow hu
  have h₂ := mul_lt_mul_of_pos_right hhigh hu
  dsimp only
  split
  · exact ⟨h₁.le, h₂.le⟩
  · exact ⟨h₁, h₂⟩

end Dyadic

/-- A whole number as the mantissa of a double. -/
def wholeDyadic (n : Nat) : Dyadic := ⟨false, n * 2 ^ (52 - n.log2), (n.log2 : Int) - 52⟩

theorem wholeDyadic_canonical (hn : 0 < n) (hlt : n < 2 ^ 53) : (wholeDyadic n).Canonical := by
  have hl : n.log2 ≤ 52 := Nat.le_of_lt_succ (log2_lt_of_lt hlt (by omega))
  have h₁ := Nat.log2_self_le hn.ne'
  have h₂ := Nat.lt_log2_self (n := n)
  have hlow : 2 ^ 52 ≤ n * 2 ^ (52 - n.log2) := by
    calc 2 ^ 52 = 2 ^ n.log2 * 2 ^ (52 - n.log2) := by rw [← Nat.pow_add]; congr 1; omega
      _ ≤ n * 2 ^ (52 - n.log2) := Nat.mul_le_mul_right _ h₁
  have hhigh : n * 2 ^ (52 - n.log2) < 2 ^ 53 := by
    calc n * 2 ^ (52 - n.log2) < 2 ^ (n.log2 + 1) * 2 ^ (52 - n.log2) :=
          Nat.mul_lt_mul_of_pos_right h₂ (Nat.two_pow_pos _)
      _ = 2 ^ 53 := by rw [← Nat.pow_add]; congr 1; omega
  refine ⟨Nat.lt_of_lt_of_le (Nat.two_pow_pos 52) hlow, hhigh, ?_, Or.inl hlow, ?_⟩ <;>
    simp only [wholeDyadic] <;> omega

theorem value_wholeDyadic (hlt : n < 2 ^ 53) : (wholeDyadic n).value = n := by
  have hl : n.log2 ≤ 52 := Nat.le_of_lt_succ (log2_lt_of_lt hlt (by omega))
  have he : ((n.log2 : Int) - 52) = -((52 - n.log2 : Nat) : Int) := by omega
  simp only [wholeDyadic, Dyadic.value, he, zpow_neg, zpow_natCast]
  push_cast
  rw [mul_assoc, mul_inv_cancel₀ (by positivity), mul_one]

/-- An integer that is the value of a double becomes that double. -/
theorem toModel_toFloat {n : UInt64} (hd : d.Canonical) (hv : d.value = n.toNat) :
    n.toFloat.toModel = Float.Model.pack (d.unpacked hd .positive) := by
  have hn : 0 < n.toNat := by
    have hpos : 0 < d.value := mul_pos (Nat.cast_pos.2 hd.pos) (by positivity)
    rw [hv] at hpos
    exact_mod_cast hpos
  have hc : compare (n.toNat : Int) 0 = .gt := Int.compare_eq_gt.2 (by omega)
  have hi : d.interval.Contains (n.toNat * 2 ^ (0 : Int)) := by
    rw [zpow_zero, mul_one, ← hv]
    exact Dyadic.contains_value hd
  have hr : UnpackedFloat.ofUInt64 Format.binary64 n = d.unpacked hd .positive := by
    simp only [UnpackedFloat.ofUInt64, UnpackedFloat.ofNat, UnpackedFloat.ofInt,
      UnpackedFloat.normalize, hc, Int.toNat_natCast]
    obtain ⟨_, hr⟩ := round_contains hd .positive hn hi
    exact hr
  have hm : n.toFloat.toModel =
      Float.Model.pack (UnpackedFloat.ofUInt64 Format.binary64 n) := rfl
  rw [hm, hr]

theorem unpack_toFloat (hn : 0 < n) (hlt : n < 2 ^ 53) :
    n.toUInt64.toFloat.toModel.unpack =
      (wholeDyadic n).unpacked (wholeDyadic_canonical hn hlt) .positive := by
  have hn' : n.toUInt64.toNat = n := by
    rw [Nat.toUInt64, UInt64.toNat_ofNat']
    omega
  have hv : (wholeDyadic n).value = n.toUInt64.toNat := by rw [hn', value_wholeDyadic hlt]
  rw [toModel_toFloat (wholeDyadic_canonical hn hlt) hv, Dyadic.unpack_pack]

/-- An unpacked double with a full mantissa and the value `10 ^ k`. -/
def isPowerOfTen (k : Nat) : UnpackedFloat → Bool
  | .finite .positive m e _ => 2 ^ 52 ≤ m && m * 2 ^ e.toNat == 10 ^ k * 2 ^ (-e).toNat
  | _ => false

theorem isPowerOfTen_table : ∀ k : Fin Float.exactlyRepresentablePowersOfTen.size,
    isPowerOfTen k Float.exactlyRepresentablePowersOfTen[k].toModel.unpack = true := by
  decide +kernel

theorem unpack_powerOfTen {k : Nat} (hk : k < Float.exactlyRepresentablePowersOfTen.size) :
    ∃ m e h, Float.exactlyRepresentablePowersOfTen[k].toModel.unpack = .finite .positive m e h ∧
      2 ^ 52 ≤ m ∧ (m : ℚ) * 2 ^ e = 10 ^ k := by
  have hp := isPowerOfTen_table ⟨k, hk⟩
  simp only [Fin.getElem_fin] at hp
  generalize Float.exactlyRepresentablePowersOfTen[k].toModel.unpack = x at hp
  unfold isPowerOfTen at hp
  split at hp
  · rename_i m e h
    simp only [Bool.and_eq_true, decide_eq_true_eq, beq_iff_eq] at hp
    refine ⟨m, e, h, rfl, hp.1, ?_⟩
    have hz := zpow_eq_div 2 (by decide) e
    rw [Nat.cast_ofNat] at hz
    rw [← hz, ← mul_div_assoc, div_eq_iff (by positivity)]
    exact_mod_cast hp.2
  · cases hp

theorem toModel_mul (x y : Float) :
    (x * y).toModel =
      Float.Model.pack (mul Format.binary64 x.toModel.unpack y.toModel.unpack) := rfl

theorem toModel_div (x y : Float) :
    (x / y).toModel =
      Float.Model.pack (div Format.binary64 x.toModel.unpack y.toModel.unpack) := rfl

/-- The digits of a decimal are scaled by a power of ten that is computed in full. -/
theorem model_ofScientific_contains (hd : d.Canonical) (hn : 0 < n) (hlow : -2048 ≤ e)
    (hhigh : e ≤ 2048) (hv : d.interval.Contains (n * 10 ^ e)) :
    UnpackedFloat.ofScientific Format.binary64 n e = d.unpacked hd .positive := by
  have hbits : (2 : Int) ^ Format.binary64.exponentBits = 2048 := by decide
  unfold UnpackedFloat.ofScientific
  rw [dif_neg hn.ne', hbits, if_neg (by omega), if_neg (by omega)]
  have hzero : (2 : ℚ) ^ (0 : Int) = 1 := zpow_zero 2
  split
  · rename_i he
    obtain ⟨k, rfl⟩ := Int.eq_ofNat_of_zero_le he
    have hv : d.interval.Contains
        ((n <<< 53 : Nat) * 2 ^ (-53 : Int) * ((10 ^ k : Nat) * 2 ^ (0 : Int))) := by
      have hs := shiftLeft_value n 53 0
      rw [show (0 : Int) - (53 : Nat) = -53 from rfl, hzero, mul_one] at hs
      rw [hs, hzero, mul_one]
      simpa using hv
    have hlen : 2 ^ 52 ≤ n <<< 53 * 10 ^ k := by
      rw [Nat.shiftLeft_eq]
      have := Nat.mul_le_mul hn (Nat.one_le_pow k 10 (by omega))
      nlinarith
    obtain ⟨_, hr⟩ := mul_contains hd .positive .positive _ (Nat.pow_pos (by decide)) hlen hv
    exact hr
  · rename_i he
    have hk : ((-e).toNat : Int) = -e := by omega
    have hv : d.interval.Contains
        (n * 2 ^ (0 : Int) / ((10 ^ (-e).toNat : Nat) * 2 ^ (0 : Int))) := by
      rw [hzero, mul_one, mul_one]
      rw [show e = -((-e).toNat : Int) by omega, zpow_neg, zpow_natCast] at hv
      push_cast
      rwa [div_eq_mul_inv]
    obtain ⟨_, hr⟩ := div_contains hd .positive .positive hn (Nat.pow_pos (by decide)) hv
    exact hr

/-- The exponent of ten that a sign and a size stand for. -/
def power (negative : Bool) (k : Nat) : Int := if negative then -(k : Int) else k

/-- Small decimals are read by one operation on exact numbers, the others from their digits. -/
theorem ofScientific_contains (hd : d.Canonical) (hn : 0 < n) {negative : Bool} {k : Nat}
    (hk : k ≤ 2048) (hv : d.interval.Contains (n * 10 ^ power negative k)) :
    (Float.ofScientific n negative k).toModel = Float.Model.pack (d.unpacked hd .positive) := by
  fun_cases Float.ofScientific n negative k with
  | case1 hsmall ten hs =>
    obtain ⟨m, e, h, hu, -, hp⟩ := unpack_powerOfTen (k := k)
      (by simp [Float.exactlyRepresentablePowersOfTen]; omega)
    have hd' := wholeDyadic_canonical hn hsmall.1
    have hv : d.interval.Contains ((wholeDyadic n).value / (m * 2 ^ e)) := by
      rw [value_wholeDyadic hsmall.1, hp]
      simpa [power, hs, div_eq_mul_inv] using hv
    obtain ⟨_, hr⟩ := div_contains hd .positive .positive hd'.pos h hv
    rw [toModel_div, unpack_toFloat hn hsmall.1, hu]
    exact congrArg Float.Model.pack hr
  | case2 hsmall ten hs =>
    obtain ⟨m, e, h, hu, hm, hp⟩ := unpack_powerOfTen (k := k)
      (by simp [Float.exactlyRepresentablePowersOfTen]; omega)
    have hd' := wholeDyadic_canonical hn hsmall.1
    have hv : d.interval.Contains ((wholeDyadic n).value * (m * 2 ^ e)) := by
      rw [value_wholeDyadic hsmall.1, hp]
      simpa [power, hs] using hv
    have hlen : 2 ^ 52 ≤ (wholeDyadic n).significand * m :=
      hm.trans (Nat.le_mul_of_pos_left m hd'.pos)
    obtain ⟨_, hr⟩ := mul_contains hd .positive .positive hd'.pos h hlen hv
    rw [toModel_mul, unpack_toFloat hn hsmall.1, hu]
    exact congrArg Float.Model.pack hr
  | case3 hlarge e =>
    have he : e = power negative k := by
      simp only [e, power, Int.negOfNat_eq, Int.ofNat_eq_natCast]
    have hb : -2048 ≤ power negative k ∧ power negative k ≤ 2048 := by
      unfold power
      split <;> omega
    rw [he]
    exact congrArg Float.Model.pack (model_ofScientific_contains hd hn hb.1 hb.2 hv)

end KLambda.Number
