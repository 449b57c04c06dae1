import KLambda.Convert
import KLambda.Proofs.Shortest

/-!
Whole numbers as doubles. A double has an exact value unless it is an infinity or NaN, and what it
is as a whole number is that value. An integer becomes the double that has its value, if there is
one, and no two doubles other than the zeros have the same value.
-/
namespace KLambda.Number

open Float.Model (Format UnpackedFloat)
open Float.Model.UnpackedFloat hiding ofInt

namespace Dyadic

variable {d : Dyadic} {n : Nat}

/-- The value of a magnitude with its sign. -/
def signedValue (d : Dyadic) : ℚ := if d.negative then -d.value else d.value

theorem value_nonneg (d : Dyadic) : 0 ≤ d.value := by
  unfold value
  positivity

theorem value_eq_zero_iff : d.value = 0 ↔ d.significand = 0 := by
  have hu : (2 : ℚ) ^ d.exponent ≠ 0 := by positivity
  simp [value, hu]

theorem toNat?_eq_some_iff : d.toNat? = some n ↔ d.value = n := by
  unfold toNat? value
  split
  · rename_i he
    obtain ⟨k, hk⟩ := Int.eq_ofNat_of_zero_le he
    rw [hk, Option.some_inj]
    norm_cast
  · rename_i he
    obtain ⟨k, hk⟩ : ∃ k : Nat, d.exponent = -(k : Int) := ⟨(-d.exponent).toNat, by omega⟩
    have hpos : 0 < Nat.pow 2 k := Nat.two_pow_pos k
    have hv : ((d.significand : ℚ) * 2 ^ d.exponent = n) ↔ d.significand = n * Nat.pow 2 k := by
      rw [hk, zpow_neg, zpow_natCast, ← div_eq_mul_inv, div_eq_iff (by positivity)]
      norm_cast
    rw [hv, show (-d.exponent).toNat = k by omega]
    split
    · rename_i hm
      rw [Option.some_inj, Nat.div_eq_iff_eq_mul_left hpos (Nat.dvd_of_mod_eq_zero hm)]
    · rename_i hm
      constructor
      · intro h
        cases h
      · intro h
        rw [h, Nat.mul_mod_left] at hm
        exact absurd rfl hm

end Dyadic

/-- The exact value of a double, which infinities and NaN do not have. -/
def value? (x : Float) : Option ℚ := (dyadic? x).map Dyadic.signedValue

variable {x : Float} {d : Dyadic} {i : Int} {n : Nat}

/-- The whole number that a double is has the value of the double. -/
theorem toInt?_eq_some_iff : toInt? x = some i ↔ value? x = some (i : ℚ) := by
  unfold toInt? value?
  cases dyadic? x with
  | none => simp
  | some d =>
    simp only [Option.map_some, Option.some_inj, Dyadic.signedValue]
    cases hn : d.toNat? with
    | some n =>
      rw [Dyadic.toNat?_eq_some_iff.1 hn]
      cases d.negative <;> simp <;> norm_cast
    | none =>
      refine iff_of_false (by simp) fun hv => ?_
      have hnat : d.value = (i.natAbs : ℕ) := by
        have hnonneg := d.value_nonneg
        rw [Nat.cast_natAbs]
        push_cast
        rw [← hv]
        split <;> simp [abs_of_nonneg hnonneg]
      rw [Dyadic.toNat?_eq_some_iff.2 hnat] at hn
      cases hn

theorem toInt?_eq_none (hx : ∀ j : Int, value? x ≠ some (j : ℚ)) : toInt? x = none := by
  cases hi : toInt? x with
  | none => rfl
  | some i => exact absurd (toInt?_eq_some_iff.1 hi) (hx i)

/-- Infinities and NaN are what has no value. -/
theorem value?_isSome_iff : (value? x).isSome = true ↔ x.isFinite = true := by
  constructor
  · intro h
    have hlt : exponentField x < 2047 := by
      have hle : exponentField x < 2 ^ 11 := Nat.mod_lt _ (by decide)
      have hne : exponentField x ≠ 2047 := by
        intro he
        simp [value?, dyadic?, he] at h
      omega
    have he := toNat_unpackExponent x
    exact (unpack_within (b := 972) (by omega) (by omega) (by omega)).isFinite
  · intro h
    obtain ⟨d, hd, -⟩ := dyadic?_of_finite h
    simp [value?, hd]

/-- The double that a canonical magnitude and a sign are packed to has their value. -/
theorem dyadic?_of_toModel {s : UnpackedFloat.Sign} (hd : d.Canonical)
    (hx : x.toModel = Float.Model.pack (d.unpacked hd s)) :
    ∃ negative, signOf negative = s ∧ dyadic? x = some { d with negative } := by
  have hu : x.toModel.unpack = d.unpacked hd s := by rw [hx, Dyadic.unpack_pack]
  have hfinite : x.isFinite = true := by
    show x.toModel.unpack.isFinite = true
    rw [hu]
    rfl
  obtain ⟨d', hd', ⟨-, hz⟩ | ⟨hc, hu'⟩⟩ := dyadic?_of_finite hfinite
  · rw [hu] at hz
    cases hz
  · rw [hu] at hu'
    obtain ⟨hs, hm, he⟩ : s = signOf d'.negative ∧ d.significand = d'.significand ∧
        d.exponent = d'.exponent := by
      simpa [Dyadic.unpacked] using hu'
    exact ⟨d'.negative, hs.symm, by rw [hd', hm, he]⟩

theorem signedValue_mk (d : Dyadic) (negative : Bool) :
    Dyadic.signedValue { d with negative } = if negative then -d.value else d.value := rfl

theorem value?_of_toModel (negative : Bool) (hd : d.Canonical)
    (hx : x.toModel = Float.Model.pack (d.unpacked hd (signOf negative))) :
    value? x = some (if negative then -d.value else d.value) := by
  obtain ⟨negative', hs, hd'⟩ := dyadic?_of_toModel hd hx
  obtain rfl : negative' = negative := by
    revert hs
    cases negative' <;> cases negative <;> simp [signOf]
  rw [value?, hd', Option.map_some, signedValue_mk]

theorem exists_value_of_canonical (hd : d.Canonical) (negative : Bool) :
    ∃ x, value? x = some (if negative then -d.value else d.value) :=
  ⟨Float.ofModel (Float.Model.pack (d.unpacked hd (signOf negative))),
    value?_of_toModel negative hd rfl⟩

/-- A number that is no zero is known by its magnitude and its sign. -/
theorem unpack_of_value (hi : i ≠ 0) (hx : value? x = some (i : ℚ)) :
    ∃ (d : Dyadic) (hd : d.Canonical), d.value = i.natAbs ∧
      x.toModel.unpack = d.unpacked hd (signOf (decide (i < 0))) := by
  have hfinite : x.isFinite = true := by
    rw [← value?_isSome_iff, hx]
    rfl
  obtain ⟨d, hd, h⟩ := dyadic?_of_finite hfinite
  have hv : (if d.negative then -d.value else d.value) = i := by
    simpa [value?, hd, Dyadic.signedValue] using hx
  have hnonneg := d.value_nonneg
  have hne : d.value ≠ 0 := by
    intro h0
    rw [h0, neg_zero, ite_self] at hv
    exact hi (by exact_mod_cast hv.symm)
  have hpos : 0 < d.value := lt_of_le_of_ne hnonneg hne.symm
  obtain ⟨hz, -⟩ | ⟨hc, hu⟩ := h
  · exact absurd (Dyadic.value_eq_zero_iff.2 hz) hne
  · have hsign : d.negative = decide (i < 0) := by
      rw [Bool.eq_iff_iff, decide_eq_true_iff, ← Int.cast_lt_zero (R := ℚ), ← hv]
      cases d.negative <;> simp [hpos, hnonneg]
    refine ⟨d, hc, ?_, hsign ▸ hu⟩
    rw [Nat.cast_natAbs]
    push_cast
    rw [← hv]
    split <;> simp [abs_of_nonneg hnonneg]

theorem toNat_toUInt64 (hn : n < 2 ^ 64) : n.toUInt64.toNat = n := by
  rw [Nat.toUInt64, UInt64.toNat_ofNat']
  exact Nat.mod_eq_of_lt hn

theorem ofInt_zero : ofInt 0 = 0 := by decide +kernel

/-- An integer that is the value of a double becomes that double, unless it is zero. -/
theorem ofInt_eq (hlt : i.natAbs < 2 ^ 64) (hi : i ≠ 0) (hx : value? x = some (i : ℚ)) :
    ofInt i = x := by
  obtain ⟨d, hd, hv, hu⟩ := unpack_of_value hi hx
  rw [← toNat_toUInt64 hlt] at hv
  refine signed_eq (toModel_toFloat hd hv) (Dyadic.unpack_pack hd _) ?_
  rw [hu]
  cases decide (i < 0) <;> rfl

/-- Both zeros have the value of zero, and they count as equal. -/
theorem beq_zero_of_value (hx : value? x = some 0) : ((0 : Float) == x) = true := by
  have hfinite : x.isFinite = true := by
    rw [← value?_isSome_iff, hx]
    rfl
  obtain ⟨d, hd, h⟩ := dyadic?_of_finite hfinite
  have hv : d.value = 0 := by
    have hs : (if d.negative then -d.value else d.value) = 0 := by
      simpa [value?, hd, Dyadic.signedValue] using hx
    split at hs
    · exact neg_eq_zero.1 hs
    · exact hs
  obtain ⟨-, hu⟩ | ⟨hc, -⟩ := h
  · have hm : x = Float.ofModel (Float.Model.pack (.zero (signOf d.negative))) := by
      rw [← hu, pack_unpack]
    rw [hm]
    cases d.negative <;> decide +kernel
  · exact absurd (Dyadic.value_eq_zero_iff.1 hv) hc.pos.ne'

/-- The double that an integer becomes is equal to every double of the same value. -/
theorem ofInt_beq (hlt : i.natAbs < 2 ^ 64) (hx : value? x = some (i : ℚ)) :
    (ofInt i == x) = true := by
  by_cases hi : i = 0
  · subst hi
    rw [ofInt_zero]
    exact beq_zero_of_value (by simpa using hx)
  · rw [ofInt_eq hlt hi hx, Float.beq_self_iff]
    rintro rfl
    have hn : dyadic? Float.nan = none := by decide +kernel
    simp [value?, hn] at hx

/-- An integer becomes a double of its value if there is one. -/
theorem value?_ofInt (hlt : i.natAbs < 2 ^ 64) :
    value? (ofInt i) = some (i : ℚ) ↔ ∃ x, value? x = some (i : ℚ) := by
  refine ⟨fun h => ⟨_, h⟩, fun ⟨x, hx⟩ => ?_⟩
  by_cases hi : i = 0
  · subst hi
    rw [ofInt_zero]
    decide +kernel
  · rwa [ofInt_eq hlt hi hx]

/-- Integers that fit a mantissa are values of doubles. -/
theorem exists_value (hlt : i.natAbs < 2 ^ 53) : ∃ x, value? x = some (i : ℚ) := by
  by_cases hi : i = 0
  · subst hi
    exact ⟨0, by decide +kernel⟩
  · have hpos : 0 < i.natAbs := Int.natAbs_pos.2 hi
    have hd := wholeDyadic_canonical hpos hlt
    have hv := value_wholeDyadic hlt
    obtain ⟨x, hx⟩ := exists_value_of_canonical hd (decide (i < 0))
    refine ⟨x, hx.trans ?_⟩
    rw [hv, Nat.cast_natAbs, Int.cast_abs]
    by_cases hneg : i < 0
    · have hlow : (i : ℚ) < 0 := by exact_mod_cast hneg
      simp [hneg, abs_of_neg hlow]
    · have hhigh : (0 : ℚ) ≤ i := by exact_mod_cast not_lt.1 hneg
      simp [hneg, abs_of_nonneg hhigh]

theorem value?_zero : value? 0 = some 0 := by decide +kernel

/-- A natural number that fits a mantissa is read exactly. -/
theorem value?_ofNat (hlt : n < 2 ^ 53) : value? (Float.ofNat n) = some (n : ℚ) := by
  obtain rfl | hn := Nat.eq_zero_or_pos n
  · decide +kernel
  · have hd := wholeDyadic_canonical hn hlt
    have hv : (wholeDyadic n).interval.Contains (n * 10 ^ power false 0) := by
      have hc := Dyadic.contains_value hd
      rw [value_wholeDyadic hlt] at hc
      simpa [power] using hc
    have hm := ofScientific_contains hd hn (Nat.zero_le _) hv
    rw [show Float.ofNat n = Float.ofScientific n false 0 from rfl, value?_of_toModel false hd hm,
      value_wholeDyadic hlt]
    rfl

end KLambda.Number
