import Mathlib
import KLambda.Number.Text
import KLambda.Proofs.Doubles

/-!
Rounding to the nearest double. A mantissa with what is known of the rest locates a number, and
shifting keeps it located, so that rounding gives the nearest mantissa, of two the even one. Hence
all numbers in the rounding interval of a double round to that double.
-/
namespace KLambda.Number

open Float.Model (Format UnpackedFloat totalExponent)
open Float.Model.UnpackedFloat

/-- A number between a mantissa and the next, as far as the accuracy tells. -/
def Locates (m : Nat) (y : ℚ) : Accuracy → Prop
  | .exact => y = m
  | .inexact .lt => m < y ∧ y < m + 1 / 2
  | .inexact .eq => y = m + 1 / 2
  | .inexact .gt => m + 1 / 2 < y ∧ y < m + 1

/-- A whole number is nearest to a number, and even if there are two such. -/
structure Nearest (n : Nat) (y : ℚ) : Prop where
  low : (n : ℚ) - 1 / 2 ≤ y
  high : y ≤ n + 1 / 2
  odd : n % 2 = 1 → (n : ℚ) - 1 / 2 < y ∧ y < n + 1 / 2

variable {m n : Nat} {e : Int} {y v : ℚ} {acc : Accuracy}

theorem Locates.bounds (h : Locates m y acc) : (m : ℚ) ≤ y ∧ y < m + 1 := by
  cases acc with
  | exact =>
    have h : y = m := h
    constructor <;> linarith
  | inexact o =>
    cases o with
    | lt => exact ⟨h.1.le, by linarith [h.2]⟩
    | eq =>
      have h : y = m + 1 / 2 := h
      constructor <;> linarith
    | gt => exact ⟨by linarith [h.1], h.2⟩

theorem Locates.rounded (h : Locates m y acc) (hn : Nearest n y) :
    acc.roundToNearestEven m = n := by
  obtain ⟨hlow, hhigh, hodd⟩ := hn
  cases acc with
  | exact =>
    have h : y = m := h
    have h₁ : (n : ℚ) < m + 1 := by linarith
    have h₂ : (m : ℚ) < n + 1 := by linarith
    norm_cast at h₁ h₂
    show m = n
    omega
  | inexact o =>
    cases o with
    | lt =>
      have h₁ : (n : ℚ) < m + 1 := by linarith [h.2]
      have h₂ : (m : ℚ) < n + 1 := by linarith [h.1]
      norm_cast at h₁ h₂
      show m = n
      omega
    | eq =>
      have h : y = m + 1 / 2 := h
      have h₁ : (n : ℚ) ≤ m + 1 := by linarith
      have h₂ : (m : ℚ) ≤ n := by linarith
      norm_cast at h₁ h₂
      show m + m % 2 = n
      rcases Nat.mod_two_eq_zero_or_one n with hn | hn
      · omega
      · -- an odd mantissa is not next to a number halfway between two
        have h₃ : (n : ℚ) < m + 1 := by linarith [(hodd hn).1]
        have h₄ : (m : ℚ) < n := by linarith [(hodd hn).2]
        norm_cast at h₃ h₄
        omega
    | gt =>
      have h₁ : (n : ℚ) < m + 2 := by linarith [h.2]
      have h₂ : (m : ℚ) < n := by linarith [h.1]
      norm_cast at h₁ h₂
      show m + 1 = n
      omega

/-- An extended mantissa locates a number by its two last bits. -/
def Represents (em : ExtendedMantissa) (y : ℚ) : Prop := Locates em.mantissa y em.accuracy

theorem Locates.represents (h : Locates m y acc) :
    Represents (ExtendedMantissa.ofMantissaAndAccuracy m acc) y := by
  cases acc with
  | exact => exact h
  | inexact o => cases o <;> exact h

theorem Represents.shiftRightOne {em : ExtendedMantissa} (h : Represents em y) :
    Represents em.shiftRightOne (y / 2) := by
  obtain ⟨m, round, sticky⟩ := em
  have hm : (m : ℚ) = 2 * ((m / 2 : Nat) : ℚ) + ((m % 2 : Nat) : ℚ) := by
    exact_mod_cast (Nat.div_add_mod m 2).symm
  rcases Nat.mod_two_eq_zero_or_one m with hr | hr <;> rw [hr] at hm <;>
    cases round <;> cases sticky <;>
    simp only [Represents, ExtendedMantissa.shiftRightOne, ExtendedMantissa.accuracy, Locates, hr,
      Bool.or_false, Bool.or_true, Nat.reduceBneDiff, bne_self_eq_false] at h ⊢ <;>
    push_cast at hm <;> (try constructor) <;> linarith

theorem Represents.shiftRight {em : ExtendedMantissa} (h : Represents em y) (k : Nat) :
    Represents (em >>> k) (y / 2 ^ k) := by
  induction k with
  | zero =>
    have hz : em >>> 0 = em := rfl
    rw [hz, pow_zero, div_one]
    exact h
  | succ k ih =>
    have hs : em >>> (k + 1) = (em >>> k).shiftRightOne := rfl
    rw [hs, pow_succ, ← div_div]
    exact ih.shiftRightOne

/-- The exponent that a number gets when it is rounded. -/
def target (m : Nat) (e : Int) : Int := max (m.log2 + 1 + e - 53) (-1074)

theorem shiftToTarget_eq (m : Nat) (e : Int) (acc : Accuracy) :
    shiftToTargetExponent Format.binary64 m e acc =
      (ExtendedMantissa.ofMantissaAndAccuracy m acc >>> (target m e - e).toNat,
        e + (target m e - e).toNat) := rfl

theorem target_le (hn : n < 2 ^ 53) (he : -1074 ≤ e) : target n e ≤ e := by
  have hl := log2_lt_of_lt hn (by omega)
  unfold target
  omega

/-- A rounded mantissa that is too long by one bit is a power of two, and is shortened. -/
theorem shiftToTarget_rounded (hn : n ≤ 2 ^ 53) (he : -1074 ≤ e) :
    (shiftToTargetExponent Format.binary64 n e .exact).1.mantissa =
        (if n = 2 ^ 53 then 2 ^ 52 else n) ∧
      (shiftToTargetExponent Format.binary64 n e .exact).2 = if n = 2 ^ 53 then e + 1 else e := by
  rw [shiftToTarget_eq]
  by_cases h : n = 2 ^ 53
  · subst h
    have ht : target (2 ^ 53) e = e + 1 := by
      have hl : Nat.log2 (2 ^ 53) = 53 := Nat.log2_two_pow
      unfold target
      omega
    have hs : (target (2 ^ 53) e - e).toNat = 1 := by omega
    rw [hs]
    exact ⟨rfl, rfl⟩
  · have ht := target_le (Nat.lt_of_le_of_ne hn h) he
    have hs : (target n e - e).toNat = 0 := by omega
    rw [hs, if_neg h, if_neg h]
    exact ⟨rfl, by simp⟩

theorem roundWithAccuracy_nearest (s : UnpackedFloat.Sign) (hl : Locates m y acc)
    (he : e ≤ target m e) (hn : Nearest n (y * 2 ^ (e - target m e))) (hpos : 0 < n)
    (hle : n ≤ 2 ^ 53) :
    ∃ h, roundWithAccuracy Format.binary64 s m e acc =
      .finite s (if n = 2 ^ 53 then 2 ^ 52 else n)
        (if n = 2 ^ 53 then target m e + 1 else target m e) h := by
  set t := target m e with ht
  have hmin : -1074 ≤ t := le_max_right _ _
  have hscale : y * 2 ^ (e - t) = y / 2 ^ (t - e).toNat := by
    have : e - t = -((t - e).toNat : Int) := by omega
    rw [this, zpow_neg, zpow_natCast, div_eq_mul_inv]
  have hfirst : (ExtendedMantissa.ofMantissaAndAccuracy m acc >>> (t - e).toNat).roundedMantissa
      = n := (hl.represents.shiftRight (t - e).toNat).rounded (hscale ▸ hn)
  have hexp : e + ((t - e).toNat : Int) = t := by omega
  have hsecond := shiftToTarget_rounded hle hmin
  have hpos' : 0 < if n = 2 ^ 53 then 2 ^ 52 else n := by split <;> omega
  refine ⟨hpos', ?_⟩
  simp only [roundWithAccuracy, shiftToTarget_eq m e acc, ← ht, hfirst, hexp]
  rw [dif_neg (by rw [hsecond.1]; omega)]
  congr 1
  · exact hsecond.1
  · exact hsecond.2

namespace Dyadic

/-- A magnitude as doubles have it: positive, with a mantissa of full length unless it is too small
for that, and not too large. -/
structure Canonical (d : Dyadic) : Prop where
  pos : 0 < d.significand
  lt : d.significand < 2 ^ 53
  le : -1074 ≤ d.exponent
  full : 2 ^ 52 ≤ d.significand ∨ d.exponent = -1074
  bound : d.exponent ≤ 971

end Dyadic

/-- The numbers of an interval. -/
def Interval.Contains (i : Interval) (v : ℚ) : Prop :=
  let unit : ℚ := i.num / i.den
  if i.closed then i.low * unit ≤ v ∧ v ≤ i.high * unit else i.low * unit < v ∧ v < i.high * unit

theorem Interval.Contains.bounds {i : Interval} (hv : i.Contains v) :
    i.low * ((i.num : ℚ) / i.den) ≤ v ∧ v ≤ i.high * ((i.num : ℚ) / i.den) ∧
      (i.closed = false →
        i.low * ((i.num : ℚ) / i.den) < v ∧ v < i.high * ((i.num : ℚ) / i.den)) := by
  unfold Contains at hv
  cases hc : i.closed with
  | true =>
    rw [if_pos hc] at hv
    exact ⟨hv.1, hv.2, nofun⟩
  | false =>
    rw [if_neg (by simp [hc])] at hv
    exact ⟨hv.1.le, hv.2.le, fun _ => hv⟩

/-- A power with an integer exponent as a quotient of whole numbers. -/
theorem zpow_eq_div (b : Nat) (hb : 0 < b) (e : Int) :
    ((b ^ e.toNat : Nat) : ℚ) / (b ^ (-e).toNat : Nat) = (b : ℚ) ^ e := by
  have hb' : (b : ℚ) ≠ 0 := by exact_mod_cast hb.ne'
  rcases le_total 0 e with h | h
  · obtain ⟨k, rfl⟩ := Int.eq_ofNat_of_zero_le h
    simp
  · obtain ⟨k, hk⟩ := Int.eq_ofNat_of_zero_le (Int.neg_nonneg_of_nonpos h)
    obtain rfl : e = -(k : Int) := by omega
    simp

namespace Dyadic

variable {d : Dyadic}

theorem unit_interval (d : Dyadic) :
    (d.interval.num : ℚ) / d.interval.den = 2 ^ d.exponent / 4 := by
  have h : (d.interval.num : ℚ) / d.interval.den = 2 ^ (d.exponent - 2) :=
    zpow_eq_div 2 (by decide) _
  rw [h, zpow_sub₀ (by norm_num)]
  norm_num

theorem cast_high_interval (d : Dyadic) : (d.interval.high : ℚ) = 4 * d.significand + 2 := by
  simp [interval]

theorem cast_low_interval (hpos : 0 < d.significand) : (d.interval.low : ℚ) =
    if d.significand = 2 ^ 52 ∧ -1074 < d.exponent then 4 * (d.significand : ℚ) - 1
    else 4 * (d.significand : ℚ) - 2 := by
  simp only [interval, Nat.pow_eq, Bool.and_eq_true, beq_iff_eq, decide_eq_true_eq]
  split
  · push_cast [show 1 ≤ 4 * d.significand by omega]
    rfl
  · push_cast [show 2 ≤ 4 * d.significand by omega]
    rfl

/-- What is in the interval has the mantissa as its nearest whole number of units in the last
place. -/
theorem nearest_of_contains (hpos : 0 < d.significand) (hv : d.interval.Contains v) :
    Nearest d.significand (v / 2 ^ d.exponent) := by
  have hu : (0 : ℚ) < 2 ^ d.exponent := by positivity
  have hc : d.interval.closed = (d.significand % 2 == 0) := rfl
  have hl : 4 * (d.significand : ℚ) - 2 ≤ d.interval.low := by
    rw [cast_low_interval hpos]
    split <;> linarith
  obtain ⟨hlow, hhigh, hstrict⟩ := hv.bounds
  rw [unit_interval] at hlow hhigh hstrict
  rw [cast_high_interval] at hhigh hstrict
  refine ⟨(le_div_iff₀ hu).2 ?_, (div_le_iff₀ hu).2 ?_, fun ho => ?_⟩
  · nlinarith
  · linarith
  · obtain ⟨hlow, hhigh⟩ := hstrict (by rw [hc, ho]; rfl)
    refine ⟨(lt_div_iff₀ hu).2 ?_, (div_lt_iff₀ hu).2 ?_⟩
    · nlinarith
    · linarith

/-- Below a power of two the next double is only half as far. -/
theorem edge_of_contains (hm : d.significand = 2 ^ 52) (he : -1074 < d.exponent)
    (hv : d.interval.Contains v) : (2 ^ 52 - 1 / 4) * 2 ^ d.exponent ≤ v := by
  have hlow := hv.bounds.1
  rw [unit_interval, cast_low_interval (by omega), if_pos ⟨hm, he⟩, hm] at hlow
  push_cast at hlow
  linarith

end Dyadic

/-- A located number is as large as its mantissa is long. -/
theorem Locates.binade (hl : Locates m y acc) (hm : 0 < m) (e : Int) :
    (2 : ℚ) ^ ((m.log2 : Int) + e) ≤ y * 2 ^ e ∧
      y * 2 ^ e < (2 : ℚ) ^ ((m.log2 : Int) + 1 + e) := by
  obtain ⟨hy, hy'⟩ := hl.bounds
  have hlog : (2 : ℚ) ^ m.log2 ≤ m := by
    exact_mod_cast Nat.log2_self_le (by omega)
  have hlog' : (m : ℚ) + 1 ≤ 2 ^ (m.log2 + 1) := by
    exact_mod_cast Nat.lt_log2_self
  constructor
  · rw [zpow_add₀ (by norm_num), zpow_natCast]
    gcongr
    linarith
  · rw [zpow_add₀ (by norm_num), show ((m.log2 : Int) + 1) = (m.log2 + 1 : Nat) from rfl,
      zpow_natCast]
    gcongr
    linarith

/-- The target is found from the size of the number. -/
theorem target_eq {E : Int} (hl : Locates m y acc) (he : e ≤ target m e) (hE : -1074 ≤ E)
    (hlt : y * 2 ^ e < 2 ^ (53 + E)) (hge : 2 ^ (52 + E) ≤ y * 2 ^ e ∨ E = -1074) :
    target m e = E := by
  have hpow {a b : Int} (h : (2 : ℚ) ^ a < 2 ^ b) : a < b :=
    (zpow_lt_zpow_iff_right₀ (by norm_num)).1 h
  rcases Nat.eq_zero_or_pos m with rfl | hm
  · have hlog : Nat.log2 0 = 0 := rfl
    have hv : y * 2 ^ e < 2 ^ e := by
      have hu : (0 : ℚ) < 2 ^ e := by positivity
      have hy : y < 1 := by simpa using hl.bounds.2
      nlinarith
    unfold target at he ⊢
    rcases hge with hge | rfl
    · have := hpow (hge.trans_lt hv)
      omega
    · omega
  · obtain ⟨hlow, hhigh⟩ := hl.binade hm e
    have h₁ := hpow (hlow.trans_lt hlt)
    unfold target
    rcases hge with hge | rfl
    · have h₂ := hpow (hge.trans_lt hhigh)
      omega
    · omega

theorem scale_shift (y : ℚ) (e t : Int) : y * 2 ^ (e - t) = y * 2 ^ e / 2 ^ t := by
  rw [zpow_sub₀ (by norm_num), mul_div_assoc]

theorem two_zpow_pred (e : Int) : (2 : ℚ) ^ (e - 1) = 2 ^ e / 2 := by
  rw [zpow_sub₀ (by norm_num), zpow_one]

section

variable {d : Dyadic}

/-- A number that is as large as the double, or as small as doubles are, has the double's exponent
as its target. -/
theorem roundWithAccuracy_level (hd : d.Canonical) (s : UnpackedFloat.Sign)
    (hl : Locates m y acc) (he : e ≤ target m e)
    (hn : Nearest d.significand (y * 2 ^ e / 2 ^ d.exponent))
    (hsize : 2 ^ (52 + d.exponent) ≤ y * 2 ^ e ∨ d.exponent = -1074) :
    ∃ h, roundWithAccuracy Format.binary64 s m e acc = .finite s d.significand d.exponent h := by
  have ht : target m e = d.exponent := by
    refine target_eq hl he hd.le ?_ hsize
    have hu : (0 : ℚ) < 2 ^ d.exponent := by positivity
    have hm : (d.significand : ℚ) + 1 ≤ 2 ^ 53 := by exact_mod_cast hd.lt
    have hh := (div_le_iff₀ hu).1 hn.high
    rw [zpow_add₀ (by norm_num)]
    norm_num at hm ⊢
    nlinarith
  have hr := roundWithAccuracy_nearest s hl he (by rwa [ht, scale_shift]) hd.pos hd.lt.le
  rwa [if_neg hd.lt.ne, if_neg hd.lt.ne, ht] at hr

/-- A number just below a power of two is rounded up to it in units of half the size. -/
theorem roundWithAccuracy_edge (s : UnpackedFloat.Sign) (hl : Locates m y acc)
    (he : e ≤ target m e) {E : Int} (hE : -1074 < E) (hsize : y * 2 ^ e < 2 ^ 52 * 2 ^ E)
    (hedge : (2 ^ 52 - 1 / 4) * 2 ^ E ≤ y * 2 ^ e) :
    ∃ h, roundWithAccuracy Format.binary64 s m e acc = .finite s (2 ^ 52) E h := by
  have hu : (0 : ℚ) < 2 ^ E := by positivity
  norm_num at hedge hsize
  have ht : target m e = E - 1 := by
    refine target_eq hl he (by omega) ?_ (Or.inl ?_)
    · rw [show (53 : Int) + (E - 1) = 52 + E by omega, zpow_add₀ (by norm_num)]
      norm_num
      exact hsize
    · rw [zpow_add₀ (by norm_num), two_zpow_pred]
      norm_num
      linarith
  have hn : Nearest (2 ^ 53) (y * 2 ^ (e - target m e)) := by
    have hu' : (0 : ℚ) < 2 ^ E / 2 := by positivity
    rw [ht, scale_shift, two_zpow_pred]
    refine ⟨(le_div_iff₀ hu').2 ?_, (div_le_iff₀ hu').2 ?_, fun h => ?_⟩
    · norm_num
      linarith
    · norm_num
      linarith
    · norm_num at h
  have hr := roundWithAccuracy_nearest s hl he hn (by norm_num) le_rfl
  rwa [if_pos rfl, if_pos rfl, ht, Int.sub_add_cancel] at hr

/-- A number in the rounding interval of a double rounds to that double. -/
theorem roundWithAccuracy_contains (hd : d.Canonical) (s : UnpackedFloat.Sign)
    (hl : Locates m y acc) (he : e ≤ target m e) (hv : d.interval.Contains (y * 2 ^ e)) :
    ∃ h, roundWithAccuracy Format.binary64 s m e acc = .finite s d.significand d.exponent h := by
  have hn := Dyadic.nearest_of_contains hd.pos hv
  by_cases hsize : 2 ^ (52 + d.exponent) ≤ y * 2 ^ e ∨ d.exponent = -1074
  · exact roundWithAccuracy_level hd s hl he hn hsize
  · obtain ⟨hsize, hexp⟩ := not_or.1 hsize
    rw [not_le, zpow_add₀ (by norm_num)] at hsize
    have hmin := hd.le
    have hm : d.significand = 2 ^ 52 := by
      have hu : (0 : ℚ) < 2 ^ d.exponent := by positivity
      have hlow := (le_div_iff₀ hu).1 hn.low
      have hlt : ((d.significand : Nat) : ℚ) < ((2 ^ 52 + 1 : Nat) : ℚ) := by
        push_cast
        norm_num at hsize
        nlinarith
      have hfull := hd.full.resolve_right hexp
      norm_cast at hlt
      omega
    have hedge := Dyadic.edge_of_contains hm (by omega) hv
    obtain ⟨h, hr⟩ := roundWithAccuracy_edge s hl he (by omega) hsize hedge
    exact ⟨hd.pos, hr.trans (by simp only [hm])⟩

end

section

variable {d : Dyadic} {m₁ m₂ : Nat} {e₁ e₂ : Int}

/-- A longer mantissa with a smaller exponent has the same value. -/
theorem shiftLeft_value (m k : Nat) (e : Int) :
    ((m <<< k : Nat) : ℚ) * 2 ^ (e - k) = m * 2 ^ e := by
  rw [Nat.shiftLeft_eq, zpow_sub₀ (by norm_num), zpow_natCast]
  push_cast
  field_simp

theorem le_target (he : -1074 < e → 2 ^ 52 ≤ m) : e ≤ target m e := by
  unfold target
  by_cases h : -1074 < e
  · have hm := he h
    have hl : 52 ≤ m.log2 := (Nat.le_log2 (by omega)).2 hm
    omega
  · omega

theorem mul_contains (hd : d.Canonical) (s₁ s₂ : UnpackedFloat.Sign) (h₁ : 0 < m₁) (h₂ : 0 < m₂)
    (hm : 2 ^ 52 ≤ m₁ * m₂)
    (hv : d.interval.Contains ((m₁ * 2 ^ e₁) * (m₂ * 2 ^ e₂))) :
    ∃ h, mul Format.binary64 (.finite s₁ m₁ e₁ h₁) (.finite s₂ m₂ e₂ h₂) =
      .finite (s₁ * s₂) d.significand d.exponent h := by
  have hl : Locates (m₁ * m₂) ((m₁ * m₂ : Nat) : ℚ) .exact := rfl
  refine roundWithAccuracy_contains hd (s₁ * s₂) hl (le_target fun _ => hm) ?_
  rw [zpow_add₀ (by norm_num)]
  push_cast
  rwa [mul_mul_mul_comm]

theorem locates_div (hm : 0 < m₂) :
    Locates (m₁ / m₂) ((m₁ : ℚ) / m₂) (accuracyOfFraction (m₁ % m₂) m₂) := by
  have hq : (m₁ : ℚ) / m₂ = (m₁ / m₂ : Nat) + ((m₁ % m₂ : Nat) : ℚ) / m₂ := by
    have hc : (m₁ : ℚ) = m₂ * (m₁ / m₂ : Nat) + (m₁ % m₂ : Nat) := by
      exact_mod_cast (Nat.div_add_mod m₁ m₂).symm
    have hm' : (m₂ : ℚ) ≠ 0 := by exact_mod_cast hm.ne'
    field_simp
    exact hc
  have hpos : (0 : ℚ) < m₂ := by exact_mod_cast hm
  have hlt : ((m₁ % m₂ : Nat) : ℚ) < m₂ := by exact_mod_cast Nat.mod_lt m₁ hm
  generalize m₁ % m₂ = r at hq hlt
  rw [hq]
  unfold accuracyOfFraction
  split
  · subst r
    simp [Locates]
  · have hr : (0 : ℚ) < r := by
      have : 0 < r := by omega
      exact_mod_cast this
    have hfrac : 0 < (r : ℚ) / m₂ := by positivity
    rcases lt_trichotomy (2 * r) m₂ with h | h | h
    · rw [Nat.compare_eq_lt.2 h]
      have hh : (r : ℚ) / m₂ < 1 / 2 := by
        rw [div_lt_div_iff₀ hpos (by norm_num)]
        have : (2 : ℚ) * r < m₂ := by exact_mod_cast h
        linarith
      exact ⟨by linarith, by linarith⟩
    · rw [Nat.compare_eq_eq.2 h]
      have hh : (r : ℚ) / m₂ = 1 / 2 := by
        rw [div_eq_div_iff hpos.ne' (by norm_num)]
        have : (2 : ℚ) * r = m₂ := by exact_mod_cast h
        linarith
      exact congrArg _ hh
    · rw [Nat.compare_eq_gt.2 h]
      have hh : 1 / 2 < (r : ℚ) / m₂ := by
        rw [div_lt_div_iff₀ (by norm_num) hpos]
        have : (m₂ : ℚ) < 2 * r := by exact_mod_cast h
        linarith
      have hh' : (r : ℚ) / m₂ < 1 := (div_lt_one hpos).2 hlt
      exact ⟨by linarith, by linarith⟩

theorem div_contains (hd : d.Canonical) (s₁ s₂ : UnpackedFloat.Sign) (h₁ : 0 < m₁) (h₂ : 0 < m₂)
    (hv : d.interval.Contains ((m₁ * 2 ^ e₁) / (m₂ * 2 ^ e₂))) :
    ∃ h, div Format.binary64 (.finite s₁ m₁ e₁ h₁) (.finite s₂ m₂ e₂ h₂) =
      .finite (s₁ / s₂) d.significand d.exponent h := by
  let t := min (e₁ - e₂)
    (Format.binary64.targetExponent (totalExponent m₁ e₁ - totalExponent m₂ e₂))
  have ht : t = min (e₁ - e₂)
      (max ((m₁.log2 + 1 + e₁) - (m₂.log2 + 1 + e₂) - 53) (-1074)) := rfl
  let k := (e₁ - e₂ - t).toNat
  have hk : (k : Int) = e₁ - e₂ - t := by omega
  have hq : -1074 < t → 2 ^ 52 ≤ m₁ <<< k / m₂ := by
    intro h
    have hlen : m₂.log2 + 53 ≤ m₁.log2 + k := by omega
    have h₁' := Nat.log2_self_le h₁.ne'
    have h₂' := Nat.lt_log2_self (n := m₂)
    rw [Nat.le_div_iff_mul_le h₂, Nat.shiftLeft_eq]
    calc 2 ^ 52 * m₂ ≤ 2 ^ 52 * 2 ^ (m₂.log2 + 1) := Nat.mul_le_mul_left _ h₂'.le
      _ = 2 ^ (m₂.log2 + 53) := by rw [← Nat.pow_add]; congr 1; omega
      _ ≤ 2 ^ (m₁.log2 + k) := Nat.pow_le_pow_right (by omega) hlen
      _ = 2 ^ m₁.log2 * 2 ^ k := Nat.pow_add ..
      _ ≤ m₁ * 2 ^ k := Nat.mul_le_mul_right _ h₁'
  have hl : Locates (m₁ <<< k / m₂) (((m₁ <<< k : Nat) : ℚ) / m₂)
      (accuracyOfFraction (m₁ <<< k % m₂) m₂) := locates_div h₂
  refine roundWithAccuracy_contains hd (s₁ / s₂) hl (le_target hq) ?_
  have hval : ((m₁ <<< k : Nat) : ℚ) / m₂ * 2 ^ t = (m₁ * 2 ^ e₁) / (m₂ * 2 ^ e₂) := by
    have ht : t = e₁ - e₂ - k := by omega
    rw [ht, div_mul_eq_mul_div, shiftLeft_value, zpow_sub₀ (by norm_num)]
    field_simp
  rwa [hval]

theorem round_contains (hd : d.Canonical) (s : UnpackedFloat.Sign) (hm : 0 < m)
    (hv : d.interval.Contains (m * 2 ^ e)) :
    ∃ h, round Format.binary64 s m e = .finite s d.significand d.exponent h := by
  let k := (e - target m e).toNat
  have hlen : -1074 < e - k → 2 ^ 52 ≤ m <<< k := by
    intro h
    have hk : 52 ≤ m.log2 + k := by
      unfold k target at *
      omega
    rw [Nat.shiftLeft_eq]
    calc 2 ^ 52 ≤ 2 ^ (m.log2 + k) := Nat.pow_le_pow_right (by omega) hk
      _ = 2 ^ m.log2 * 2 ^ k := Nat.pow_add ..
      _ ≤ m * 2 ^ k := Nat.mul_le_mul_right _ (Nat.log2_self_le hm.ne')
  have hl : Locates (m <<< k) ((m <<< k : Nat) : ℚ) .exact := rfl
  refine roundWithAccuracy_contains hd s hl (le_target hlen) ?_
  rw [← shiftLeft_value m k e] at hv
  exact hv

end

end KLambda.Number
