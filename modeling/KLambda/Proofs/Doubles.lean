import KLambda.Proofs.Lexing
import Mathlib.Algebra.Group.Nat.Defs

/-!
Which doubles are finite. Rounding overflows only where the exponent is large, so whole numbers that
fit a mantissa are finite, and so is the difference of a finite number and itself. Rounding never
gives NaN, so a number that is spelled in decimals is finite or, if it is too large, an infinity.
-/
namespace KLambda.Number

open Float.Model (Format UnpackedFloat totalExponent)
open Float.Model.UnpackedFloat

/-- Zero, or a finite number with a mantissa below `2 ^ k` and an exponent of at most `b`. -/
def Within (k : Nat) (b : Int) : UnpackedFloat → Prop
  | .zero _ => True
  | .finite _ m e _ => m < 2 ^ k ∧ e ≤ b
  | .infinity _ | .notANumber => False

instance (k : Nat) (b : Int) (x : UnpackedFloat) : Decidable (Within k b x) :=
  match x with
  | .zero _ => isTrue trivial
  | .finite _ m e _ => inferInstanceAs (Decidable (m < 2 ^ k ∧ e ≤ b))
  | .infinity _ | .notANumber => isFalse id

section

variable {k : Nat} {b e : Int} {m : Nat}

theorem mantissa_shiftRight_le (em : ExtendedMantissa) (n : Nat) :
    (em >>> n).mantissa ≤ em.mantissa := by
  induction n with
  | zero => exact Nat.le_refl _
  | succ n ih =>
    have hs : (em >>> (n + 1)).mantissa = (em >>> n).mantissa / 2 := rfl
    omega

theorem roundedMantissa_le (em : ExtendedMantissa) : em.roundedMantissa ≤ em.mantissa + 1 := by
  unfold ExtendedMantissa.roundedMantissa
  cases em.accuracy with
  | exact => exact Nat.le_succ _
  | inexact o =>
    cases o <;> simp only [Accuracy.roundToNearestEven] <;> omega

theorem targetExponent_eq (m : Nat) (e : Int) :
    Format.binary64.targetExponent (totalExponent m e) = max (m.log2 + 1 + e - 53) (-1074) :=
  rfl

theorem log2_lt_of_lt (hm : m < 2 ^ k) (hk : 0 < k) : m.log2 < k := by
  by_cases h : m = 0
  · simpa [h] using hk
  · exact (Nat.log2_lt h).2 hm

theorem mantissa_shiftToTarget_le (m : Nat) (e : Int) (accuracy : Accuracy) :
    (shiftToTargetExponent Format.binary64 m e accuracy).1.mantissa ≤ m := by
  refine Nat.le_trans (mantissa_shiftRight_le _ _) (Nat.le_of_eq ?_)
  cases accuracy with
  | exact => rfl
  | inexact o => cases o <;> rfl

theorem exponent_shiftToTarget_le (hm : m < 2 ^ k) (hk : 0 < k) (he : e ≤ b) (hb : -1074 ≤ b)
    (accuracy : Accuracy) :
    (shiftToTargetExponent Format.binary64 m e accuracy).2 ≤ b + k := by
  have hl := log2_lt_of_lt hm hk
  simp only [shiftToTargetExponent, shiftToExponent, targetExponent_eq]
  omega

/-- Rounding may shift twice, the second time by one. -/
theorem roundWithAccuracy_within (hm : m < 2 ^ k) (hk : 0 < k) (he : e ≤ b) (hb : -1074 ≤ b)
    (s : UnpackedFloat.Sign) (accuracy : Accuracy) :
    Within (k + 1) (b + 2 * k + 1) (roundWithAccuracy Format.binary64 s m e accuracy) := by
  fun_cases roundWithAccuracy Format.binary64 s m e accuracy with
  | case1 => trivial
  | case2 first x hfirst rounded second y hsecond final h =>
    have hm₁ := mantissa_shiftToTarget_le m e accuracy
    have hx := exponent_shiftToTarget_le hm hk he hb accuracy
    rw [hfirst] at hm₁ hx
    dsimp only at hm₁
    have hr : rounded < 2 ^ (k + 1) := by
      have hup : rounded ≤ first.mantissa + 1 := roundedMantissa_le first
      rw [Nat.pow_succ]
      omega
    have hm₂ := mantissa_shiftToTarget_le rounded x .exact
    have hy := exponent_shiftToTarget_le hr (Nat.succ_pos k) hx (by omega) .exact
    rw [hsecond] at hm₂ hy
    refine ⟨Nat.lt_of_le_of_lt hm₂ hr, Int.le_trans hy ?_⟩
    push_cast
    omega

/-- Making a mantissa longer adds no more digits than there is room for. -/
theorem round_within (hm : m < 2 ^ k) (hk : 0 < k) (he : e ≤ b) (hb : -1074 ≤ b)
    (s : UnpackedFloat.Sign) :
    Within (k + 54) (b + 2 * k + 107) (round Format.binary64 s m e) := by
  let shift := (e - Format.binary64.targetExponent (totalExponent m e)).toNat
  have hs : shift ≤ 53 := by
    simp only [shift, targetExponent_eq]
    omega
  have hm' : m <<< shift < 2 ^ (k + 53) := by
    rw [Nat.shiftLeft_eq, Nat.pow_add]
    exact Nat.mul_lt_mul_of_lt_of_le hm (Nat.pow_le_pow_right (by omega) hs) (Nat.two_pow_pos _)
  have hr := roundWithAccuracy_within hm' (by omega) (e := e - shift) (by omega) hb s .exact
  have hc : b + 2 * ((k + 53 : Nat) : Int) + 1 = b + 2 * k + 107 := by
    push_cast
    omega
  rwa [hc] at hr

theorem mul_within {k' : Nat} {b' : Int} {x y : UnpackedFloat} (hx : Within k b x)
    (hy : Within k' b' y) (hk : 0 < k) (hb : -1074 ≤ b + b') :
    Within (k + k' + 1) (b + b' + 2 * (k + k' : Nat) + 1) (mul Format.binary64 x y) := by
  cases x with
  | zero => cases y <;> first | exact hy.elim | trivial
  | finite =>
    cases y with
    | zero => trivial
    | finite =>
      have hm := Nat.mul_lt_mul'' hx.1 hy.1
      rw [← Nat.pow_add] at hm
      exact roundWithAccuracy_within hm (by omega) (Int.add_le_add hx.2 hy.2) hb _ _
    | _ => exact hy.elim
  | _ => exact hx.elim

theorem ne_ones_iff {x : BitVec Format.binary64.exponentBits} : x ≠ -1#_ ↔ x.toNat < 2047 := by
  have ho : (-1#_ : BitVec Format.binary64.exponentBits).toNat = 2047 := by decide
  have hlt : x.toNat < 2048 := x.isLt
  constructor
  · intro h
    have hn : x.toNat ≠ 2047 := fun hx => h (BitVec.eq_of_toNat_eq (hx.trans ho.symm))
    omega
  · rintro hx rfl
    omega

/-- What is not all ones in the exponent unpacks to zero or a finite number. -/
theorem unpack_within {v : BitVec Format.binary64.numBits} (hx : (unpackExponent v).toNat < 2047)
    (he : ((unpackExponent v).toNat : Int) - 1075 ≤ b) (hb : -1074 ≤ b) :
    Within 53 b (UnpackedFloat.unpack Format.binary64 v) := by
  have hbias : (Format.binary64.exponentBias : Int) +
      (Format.binary64.mantissaBitsWithoutImplicit : Int) = 1075 := rfl
  unfold UnpackedFloat.unpack
  rw [if_neg (ne_ones_iff.2 hx)]
  by_cases hz : unpackExponent v = 0#_
  · have hzero : (unpackExponent v).toNat = 0 := by rw [hz]; rfl
    rw [if_pos hz]
    by_cases hm : unpackMantissa v = 0#_
    · rw [dif_pos hm]
      trivial
    · rw [dif_neg hm]
      exact ⟨Nat.lt_trans (unpackMantissa v).isLt (by decide), by omega⟩
  · rw [if_neg hz]
    exact ⟨BitVec.isLt _, by omega⟩

theorem unpackExponent_pack_le (s : UnpackedFloat.Sign) (h : 0 < m) (he : e ≤ 971) :
    (unpackExponent (UnpackedFloat.pack Format.binary64 (.finite s m e h))).toNat ≤
      (e + 1075).toNat := by
  have hbias : e + (Format.binary64.exponentBias : Int) +
      (Format.binary64.mantissaBitsWithoutImplicit : Int) = e + 1075 := by
    rw [show (Format.binary64.exponentBias : Int) = 1023 from rfl, Int.add_assoc]
    rfl
  unfold UnpackedFloat.pack
  simp only [hbias]
  rw [if_neg (by omega)]
  split
  · rw [unpackExponent_packComponents]
    exact Nat.mod_le _ _
  · rw [unpackExponent_packComponents]
    exact Nat.zero_le _

theorem unpack_pack (x : UnpackedFloat) :
    (Float.Model.pack x).unpack =
      UnpackedFloat.unpack Format.binary64 (UnpackedFloat.pack Format.binary64 x) :=
  rfl

/-- What is within the range of doubles stays so when it is packed. -/
theorem Within.pack {x : UnpackedFloat} (hx : Within k b x) (hb : -1074 ≤ b) (hb' : b ≤ 971) :
    Within 53 b (Float.Model.pack x).unpack := by
  rw [unpack_pack]
  cases x with
  | zero s =>
    have hz : (unpackExponent (packedZero Format.binary64 s)).toNat = 0 := by
      simp [packedZero]
    change Within 53 b (UnpackedFloat.unpack Format.binary64 (packedZero Format.binary64 s))
    exact unpack_within (by omega) (by omega) hb
  | finite s m e h =>
    have he := hx.2
    have hp := unpackExponent_pack_le s h (Int.le_trans he hb')
    exact unpack_within (by omega) (by omega) hb
  | _ => exact hx.elim

theorem Within.isFinite {x : UnpackedFloat} (hx : Within k b x) : x.isFinite = true := by
  cases x <;> first | rfl | exact hx.elim

theorem Within.isNaN {x : UnpackedFloat} (hx : Within k b x) : x.isNaN = false := by
  cases x <;> first | rfl | exact hx.elim

theorem isNaN_unpack {v : BitVec Format.binary64.numBits}
    (hv : unpackExponent v ≠ -1#_ ∨ unpackMantissa v = 0#_) :
    (UnpackedFloat.unpack Format.binary64 v).isNaN = false := by
  by_cases he : unpackExponent v = -1#_
  · have hm : unpackMantissa v = 0#_ := hv.resolve_left (not_not_intro he)
    unfold UnpackedFloat.unpack
    rw [if_pos he, if_pos hm]
    rfl
  · have hx := ne_ones_iff.1 he
    exact (unpack_within (b := 971) hx (by omega) (by omega)).isNaN

/-- Only NaN packs to NaN. -/
theorem isNaN_pack {x : UnpackedFloat} (hx : x.isNaN = false) :
    (Float.Model.pack x).unpack.isNaN = false := by
  rw [unpack_pack]
  apply isNaN_unpack
  fun_cases UnpackedFloat.pack Format.binary64 x with
  | case1 => cases hx
  | case2 | case4 => simp [packedInfinity]
  | case3 => simp [packedZero]
  | case5 s m e h actual biased hb hm =>
    have hlt : biased + 1 < 2 ^ 11 := Nat.lt_of_not_le hb
    have hx : biased % 2 ^ 11 ≤ biased := Nat.mod_le biased _
    rw [unpackExponent_packComponents]
    exact Or.inl (ne_ones_iff.2 (show biased % 2 ^ 11 < 2047 by omega))
  | case6 => simp

end

theorem toFloat_within (n : UInt64) : Within 53 235 n.toFloat.toModel.unpack := by
  have hn : n.toNat < 2 ^ 64 := n.toNat_lt
  have hw : Within 118 235 (UnpackedFloat.ofUInt64 Format.binary64 n) := by
    simp only [UnpackedFloat.ofUInt64, UnpackedFloat.ofNat, UnpackedFloat.ofInt,
      UnpackedFloat.normalize]
    split
    · rename_i h
      have hneg := Int.compare_eq_lt.1 h
      omega
    · trivial
    · exact round_within hn (by omega) (Int.le_refl 0) (by omega) .positive
  exact hw.pack (by omega) (by omega)

/-- A whole number that fits a mantissa. -/
theorem isFinite_ofNat {n : Nat} (hn : n < 2 ^ 53) : (Float.ofNat n).isFinite = true := by
  have hone : Within 53 0 (Float.ofBits 0x3FF0000000000000).toModel.unpack := by decide +kernel
  have he : Float.ofNat n = n.toUInt64.toFloat * Float.ofBits 0x3FF0000000000000 := by
    have hs : Float.ofNat n = Float.ofScientific n false 0 := rfl
    rw [hs, Float.ofScientific, dif_pos ⟨hn, by omega⟩]
    rfl
  have hp := mul_within (toFloat_within n.toUInt64) hone (by omega) (by omega)
  rw [he]
  exact (hp.pack (by omega) (by omega)).isFinite

theorem sub_self {x : UnpackedFloat} (hx : x.isFinite = true) :
    UnpackedFloat.sub Format.binary64 x x = .zero .positive := by
  cases x with
  | zero s => cases s <;> rfl
  | finite s m e h =>
    unfold UnpackedFloat.sub
    dsimp only
    rw [Int.sub_self]
    rfl
  | _ => cases hx

theorem isFinite_sub_self {x : Float} (hx : x.isFinite = true) : (x - x).isFinite = true := by
  have hs : (x - x).toModel = Float.Model.pack (.zero .positive) :=
    congrArg Float.Model.pack (sub_self hx)
  have hw : Within 0 0 (.zero .positive) := trivial
  show (x - x).toModel.unpack.isFinite = true
  rw [hs]
  exact (hw.pack (by omega) (by omega)).isFinite

theorem isNaN_roundWithAccuracy (s : UnpackedFloat.Sign) (m : Nat) (e : Int) (accuracy : Accuracy) :
    (roundWithAccuracy Format.binary64 s m e accuracy).isNaN = false := by
  fun_cases roundWithAccuracy Format.binary64 s m e accuracy <;> rfl

/-- A number other than NaN times or by one that is neither zero nor infinite. -/
theorem isNaN_scale {x : UnpackedFloat} (hx : x.isNaN = false) (s : UnpackedFloat.Sign) (m : Nat)
    (e : Int) (h : 0 < m) :
    (UnpackedFloat.mul Format.binary64 x (.finite s m e h)).isNaN = false ∧
      (UnpackedFloat.div Format.binary64 x (.finite s m e h)).isNaN = false := by
  cases x with
  | finite => exact ⟨isNaN_roundWithAccuracy _ _ _ _, isNaN_roundWithAccuracy _ _ _ _⟩
  | notANumber => cases hx
  | _ => exact ⟨rfl, rfl⟩

theorem unpack_powersOfTen {x : Float} (hx : x ∈ Float.exactlyRepresentablePowersOfTen) :
    ∃ s m e h, x.toModel.unpack = .finite s m e h := by
  have hall : ∀ x ∈ Float.exactlyRepresentablePowersOfTen,
      (match x.toModel.unpack with | .finite .. => true | _ => false) = true := by
    decide +kernel
  have hu := hall x hx
  cases hc : x.toModel.unpack with
  | finite s m e h => exact ⟨s, m, e, h, rfl⟩
  | _ =>
    rw [hc] at hu
    cases hu

theorem isNaN_ofScientific (m : Nat) (s : Bool) (e : Nat) :
    (Float.ofScientific m s e).isNaN = false := by
  have hm := (toFloat_within m.toUInt64).isNaN
  fun_cases Float.ofScientific m s e with
  | case1 h power hs =>
    obtain ⟨s, p, x, hp, hu⟩ := unpack_powersOfTen (x := power) (Array.getElem_mem _)
    have hq := (isNaN_scale hm s p x hp).2
    rw [← hu] at hq
    exact isNaN_pack hq
  | case2 h power hs =>
    obtain ⟨s, p, x, hp, hu⟩ := unpack_powersOfTen (x := power) (Array.getElem_mem _)
    have hq := (isNaN_scale hm s p x hp).1
    rw [← hu] at hq
    exact isNaN_pack hq
  | case3 h power =>
    refine isNaN_pack ?_
    fun_cases UnpackedFloat.ofScientific Format.binary64 m power with
    | case1 | case2 | case3 => rfl
    | case4 => exact (isNaN_scale rfl _ _ _ _).1
    | case5 => exact (isNaN_scale rfl _ _ _ _).2

theorem isNaN_neg {x : Float} (hx : x.isNaN = false) : (-x).isNaN = false := by
  refine isNaN_pack (x := x.toModel.unpack.neg) ?_
  revert hx
  show x.toModel.unpack.isNaN = false → _
  cases x.toModel.unpack with
  | notANumber =>
    intro h
    cases h
  | _ => exact fun _ => rfl

/-- A number that is spelled is never NaN. -/
theorem Spells.isNaN {cs : List Char} {n : Float} (h : Spells cs n) : n.isNaN = false := by
  have hs : ∀ negative m s e, (signed negative (Float.ofScientific m s e)).isNaN = false := by
    intro negative m s e
    have hn := isNaN_ofScientific m s e
    cases negative with
    | true => exact isNaN_neg hn
    | false => exact hn
  cases h <;> exact hs _ _ _ _

theorem isInf_of_not_finite {x : Float} (hn : x.isNaN = false) (hf : ¬ x.isFinite = true) :
    x.isInf = true := by
  revert hn hf
  show x.toModel.unpack.isNaN = false → ¬ x.toModel.unpack.isFinite = true →
    x.toModel.unpack.isInf = true
  cases x.toModel.unpack with
  | infinity => exact fun _ _ => rfl
  | notANumber =>
    intro h
    cases h
  | _ => exact fun _ hf => absurd rfl hf

end KLambda.Number
