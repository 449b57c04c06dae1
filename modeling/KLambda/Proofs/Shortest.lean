import KLambda.Proofs.Decimals

/-!
Texts of doubles. The search for the shortest decimal ends at one inside the rounding interval, and
positional notation spells just that decimal, so the text of a finite double reads back as the same
double, sign of zero included.
-/
namespace KLambda.Number

open Float.Model (Format UnpackedFloat)
open Float.Model.UnpackedFloat

theorem pack_unpack (x : Float.Model) : Float.Model.pack x.unpack = x := by
  obtain ⟨bits, valid⟩ := x
  unfold Float.Model.pack
  congr 1
  exact congrArg UInt64.ofBitVec (pack_unpack_of_valid valid)

theorem toNat_unpackExponent (x : Float) :
    (@unpackExponent Format.binary64 x.toModel.toBits.toBitVec).toNat =
      exponentField x := by
  rw [unpackExponent_def, BitVec.extractLsb'_toNat, Nat.shiftRight_eq_div_pow]
  rfl

theorem toNat_unpackMantissa (x : Float) :
    (@unpackMantissa Format.binary64 x.toModel.toBits.toBitVec).toNat =
      fractionField x := by
  rw [unpackMantissa_def, BitVec.extractLsb'_toNat, Nat.shiftRight_zero]
  rfl

/-- The sign that a sign bit stands for. -/
def signOf (negative : Bool) : UnpackedFloat.Sign := if negative then .negative else .positive

theorem ofBitVec_unpackSign (x : Float) :
    Sign.ofBitVec (@unpackSign Format.binary64 x.toModel.toBits.toBitVec) =
      signOf (signBit x) := by
  have hn : (@unpackSign Format.binary64 x.toModel.toBits.toBitVec).toNat =
      x.toBits.toNat / 2 ^ 63 := by
    have hlt : x.toBits.toNat / 2 ^ 63 < 2 := Nat.div_lt_of_lt_mul x.toBits.toNat_lt
    rw [unpackSign_def, BitVec.extractLsb'_toNat, Nat.shiftRight_eq_div_pow]
    exact Nat.mod_eq_of_lt hlt
  have hb : signBit x = (x.toBits.toNat / 2 ^ 63 == 1) := rfl
  rw [hb, ← hn]
  generalize @unpackSign Format.binary64 x.toModel.toBits.toBitVec = b
  obtain rfl | rfl : b = 0#1 ∨ b = 1#1 := by
    revert b
    decide
  · rfl
  · rfl

/-- A finite double is a zero or a canonical magnitude, with the sign that its first bit tells. -/
theorem dyadic?_of_finite {x : Float} (hx : x.isFinite = true) :
    ∃ d, dyadic? x = some d ∧
      (d.significand = 0 ∧ x.toModel.unpack = .zero (signOf d.negative) ∨
        ∃ hd : d.Canonical, x.toModel.unpack = d.unpacked hd (signOf d.negative)) := by
  have hbias : (Format.binary64.exponentBias : Int) +
      (Format.binary64.mantissaBitsWithoutImplicit : Int) = 1075 := rfl
  have hf : fractionField x < 2 ^ 52 := Nat.mod_lt _ (by decide)
  have hm := toNat_unpackMantissa x
  have he := toNat_unpackExponent x
  have hs := ofBitVec_unpackSign x
  have hfinite : x.toModel.unpack.isFinite = true := hx
  revert hfinite
  unfold Float.Model.unpack
  fun_cases UnpackedFloat.unpack Format.binary64 x.toModel.toBits.toBitVec with
  | case1 | case2 =>
    intro hfinite
    cases hfinite
  | case3 mantissa exponent sign s _ hexp hman =>
    intro _
    have hx₀ : exponentField x = 0 := by
      rw [← he]
      exact congrArg BitVec.toNat hexp
    have hf₀ : fractionField x = 0 := by
      rw [← hm]
      exact congrArg BitVec.toNat hman
    refine ⟨⟨signBit x, fractionField x, -1074⟩, by simp [dyadic?, hx₀], Or.inl ⟨hf₀, ?_⟩⟩
    exact congrArg UnpackedFloat.zero hs
  | case4 mantissa exponent e sign s _ hexp hman =>
    intro _
    have hx₀ : exponentField x = 0 := by
      rw [← he]
      exact congrArg BitVec.toNat hexp
    have hpos : 0 < fractionField x := by
      rw [← hm, BitVec.toNat_pos, BitVec.pos_iff_ne_zero]
      exact hman
    refine ⟨⟨signBit x, fractionField x, -1074⟩, by simp [dyadic?, hx₀], Or.inr ⟨?_, ?_⟩⟩
    · exact ⟨hpos, hf.trans (by decide), le_rfl, Or.inr rfl, show (-1074 : Int) ≤ 971 by decide⟩
    · have he₀ : e + 1 = -1074 := by
        have h₀ : (exponent.toNat : Int) = 0 := by exact_mod_cast he.trans hx₀
        omega
      exact finite_congr hs hm he₀ _ _
  | case5 mantissa exponent e sign s hexp hexp' =>
    intro _
    have hlt := ne_ones_iff.1 hexp
    have hpos : 0 < exponent.toNat := by
      rw [BitVec.toNat_pos, BitVec.pos_iff_ne_zero]
      exact hexp'
    have he' : exponent.toNat = exponentField x := he
    have hx₁ : exponentField x ≠ 2047 := by omega
    have hx₂ : exponentField x ≠ 0 := by omega
    refine ⟨⟨signBit x, 2 ^ 52 + fractionField x, (exponentField x : Int) - 1075⟩,
      by simp [dyadic?, hx₁, hx₂], Or.inr ⟨?_, ?_⟩⟩
    · refine ⟨?_, ?_, ?_, Or.inl ?_, ?_⟩ <;> simp only [] <;> omega
    · refine finite_congr hs ?_ ?_ _ _
      · rw [toNat_one_append]
        exact congrArg (2 ^ 52 + ·) hm
      · show (exponent.toNat : Int) - _ = (exponentField x : Int) - 1075
        omega

namespace Interval

variable {i : Interval} {k : Int} {n : Nat}

/-- Scaling to a decimal grid compares the same numbers, all of them times a common factor. -/
theorem scale_spec (hden : 0 < i.den) (k : Int) : ∃ c : ℚ, 0 < c ∧
    (∀ a : Nat, ((a * (i.scale k).1 : Nat) : ℚ) = c * (a * ((i.num : ℚ) / i.den))) ∧
    ∀ n : Nat, ((n * (i.scale k).2 : Nat) : ℚ) = c * (n * 10 ^ k) := by
  have hden : (0 : ℚ) < i.den := by exact_mod_cast hden
  refine ⟨i.den * (10 ^ (-k).toNat : Nat), by positivity, fun a => ?_, fun n => ?_⟩
  · simp only [scale, Nat.pow_eq]
    push_cast
    field_simp
  · have hz := zpow_eq_div 10 (by decide) k
    rw [Nat.cast_ofNat] at hz
    rw [← hz]
    simp only [scale, Nat.pow_eq]
    push_cast
    field_simp

theorem holds_iff (hden : 0 < i.den) :
    i.holds (i.scale k).1 (i.scale k).2 n = true ↔ i.Contains (n * 10 ^ k) := by
  obtain ⟨c, hc, ha, hn⟩ := scale_spec hden k
  have hle (a : Nat) : a * (i.scale k).1 ≤ n * (i.scale k).2 ↔
      a * ((i.num : ℚ) / i.den) ≤ n * 10 ^ k := by
    rw [← Nat.cast_le (α := ℚ), ha, hn, mul_le_mul_iff_right₀ hc]
  have hge (a : Nat) : n * (i.scale k).2 ≤ a * (i.scale k).1 ↔
      n * 10 ^ k ≤ a * ((i.num : ℚ) / i.den) := by
    rw [← Nat.cast_le (α := ℚ), ha, hn, mul_le_mul_iff_right₀ hc]
  unfold holds Contains
  dsimp only
  split
  · rw [Bool.and_eq_true, decide_eq_true_eq, decide_eq_true_eq, hle, hge]
  · rw [Bool.and_eq_true, decide_eq_true_eq, decide_eq_true_eq, ← not_le, ← not_le, hle, hge,
      not_le, not_le]

theorem contains_of_onGrid? (hden : 0 < i.den) (h : i.onGrid? k = some n) :
    i.Contains (n * 10 ^ k) := by
  rw [← holds_iff hden]
  unfold onGrid? at h
  dsimp only at h
  split at h
  · split at h <;> cases h <;> assumption
  · cases h
    assumption
  · cases h
    assumption
  · cases h

/-- A grid with steps of less than two units has a point in the upper half of the interval. -/
theorem onGrid?_isSome (hden : 0 < i.den) (hlow : i.low ≤ i.mid) (hhigh : i.mid + 2 ≤ i.high)
    (hk : (i.scale k).2 < 2 * (i.scale k).1) : (i.onGrid? k).isSome = true := by
  have hpos : 0 < (i.scale k).2 := Nat.mul_pos hden (Nat.pow_pos (by decide))
  have hholds : i.holds (i.scale k).1 (i.scale k).2 (i.mid * (i.scale k).1 / (i.scale k).2 + 1)
      = true := by
    generalize (i.scale k).1 = num at hk
    generalize (i.scale k).2 = den at hk hpos
    have hq := Nat.div_add_mod (i.mid * num) den
    have hr := Nat.mod_lt (i.mid * num) hpos
    have hl := Nat.mul_le_mul_right num hlow
    have hh := Nat.mul_le_mul_right num hhigh
    rw [Nat.add_mul] at hh
    have ha : (i.mid * num / den + 1) * den = den * (i.mid * num / den) + den := by ring
    have habove : i.low * num < (i.mid * num / den + 1) * den ∧
        (i.mid * num / den + 1) * den < i.high * num := by omega
    unfold holds
    split
    · simp [habove.1.le, habove.2.le]
    · simp [habove.1, habove.2]
  unfold onGrid?
  dsimp only
  rw [hholds]
  split <;> first | rfl | simp_all

theorem search_spec (fuel : Nat) (k : Int) (h : (i.onGrid? (k - fuel)).isSome = true) :
    i.onGrid? (i.search (fuel + 1) k).exponent = some (i.search (fuel + 1) k).digits ∧
      k - fuel ≤ (i.search (fuel + 1) k).exponent ∧ (i.search (fuel + 1) k).exponent ≤ k := by
  induction fuel generalizing k with
  | zero =>
    rw [Nat.cast_zero, Int.sub_zero] at h
    obtain ⟨n, hn⟩ := Option.isSome_iff_exists.1 h
    simp [search, hn]
  | succ fuel ih =>
    unfold search
    cases hn : i.onGrid? k with
    | some n =>
      refine ⟨hn, ?_, le_rfl⟩
      show k - ((fuel + 1 : Nat) : Int) ≤ k
      omega
    | none =>
      have hk : k - ((fuel + 1 : Nat) : Int) = k - 1 - fuel := by
        push_cast
        ring
      rw [hk] at h
      obtain ⟨hs, hlow, hhigh⟩ := ih (k - 1) h
      dsimp only
      exact ⟨hs, by omega, by omega⟩

end Interval

/-- As `10 ^ 3` is below `2 ^ 10`, and `2 ^ 13` is below `10 ^ 4`. -/
theorem ten_zpow_lt {k e : Int} (hlarge : 10 * k < 3 * e) (hsmall : 13 * k < 4 * e) :
    (10 : ℚ) ^ k < 2 ^ e := by
  rcases le_total 0 k with hk | hk
  · refine lt_of_pow_lt_pow_left₀ 3 (by positivity) ?_
    calc ((10 : ℚ) ^ k) ^ 3 = 1000 ^ k := by rw [← zpow_natCast, zpow_comm]; norm_num
      _ ≤ 1024 ^ k := zpow_le_zpow_left₀ hk (by norm_num) (by norm_num)
      _ = 2 ^ (10 * k) := by rw [zpow_mul]; norm_num
      _ < 2 ^ (3 * e) := zpow_lt_zpow_right₀ (by norm_num) hlarge
      _ = (2 ^ e) ^ 3 := by rw [← zpow_natCast, ← zpow_mul, mul_comm]; rfl
  · obtain ⟨j, rfl⟩ : ∃ j : Nat, k = -j := ⟨(-k).toNat, by omega⟩
    refine lt_of_pow_lt_pow_left₀ 4 (by positivity) ?_
    calc ((10 : ℚ) ^ (-j : Int)) ^ 4 = 10000 ^ (-j : Int) := by
          rw [← zpow_natCast, zpow_comm]; norm_num
      _ ≤ 8192 ^ (-j : Int) := by
          rw [zpow_neg, zpow_neg, zpow_natCast, zpow_natCast]
          gcongr
          norm_num
      _ = 2 ^ (13 * (-j : Int)) := by rw [zpow_mul]; norm_num
      _ < 2 ^ (4 * e) := zpow_lt_zpow_right₀ (by norm_num) hsmall
      _ = (2 ^ e) ^ 4 := by rw [← zpow_natCast, ← zpow_mul, mul_comm]; rfl

namespace Dyadic

variable {d : Dyadic}

/-- Where the search for the digits starts. -/
def start (d : Dyadic) : Int := decimalBound (d.significand.log2 + 1 + d.exponent)

theorem start_bounds (hd : d.Canonical) : -322 ≤ d.start ∧ d.start ≤ 310 := by
  have hl := log2_lt_of_lt hd.lt (by omega)
  have h₁ := hd.le
  have h₂ := hd.bound
  unfold start decimalBound
  omega

/-- On the last of forty grids the step is below half a unit in the last place. -/
theorem scale_last (hd : d.Canonical) :
    (d.interval.scale (d.start - 39)).2 < 2 * (d.interval.scale (d.start - 39)).1 := by
  have hden : 0 < d.interval.den := Nat.pow_pos (by decide)
  obtain ⟨c, hc, ha, hn⟩ := Interval.scale_spec hden (d.start - 39)
  have hk : (10 : ℚ) ^ (d.start - 39) < 2 ^ (d.exponent - 1) := by
    have hl := log2_lt_of_lt hd.lt (by omega)
    have hmin := hd.le
    have hbound := hd.bound
    apply ten_zpow_lt <;> unfold start decimalBound <;> omega
  rw [two_zpow_pred] at hk
  rw [← Nat.cast_lt (α := ℚ), ha, ← Nat.one_mul (d.interval.scale _).2, hn, unit_interval,
    mul_lt_mul_iff_right₀ hc]
  push_cast
  linarith

/-- The shortest decimal is positive, not too long, and in the rounding interval. -/
theorem shortest_spec (hd : d.Canonical) :
    d.interval.Contains (d.shortest.digits * 10 ^ d.shortest.exponent) ∧ 0 < d.shortest.digits ∧
      -361 ≤ d.shortest.exponent ∧ d.shortest.exponent ≤ 310 := by
  have hden : 0 < d.interval.den := Nat.pow_pos (by decide)
  have hlow : 0 < d.interval.low ∧ d.interval.low ≤ d.interval.mid := by
    have := hd.pos
    simp only [interval]
    split <;> omega
  have hsome := Interval.onGrid?_isSome hden hlow.2 le_rfl (scale_last hd)
  obtain ⟨hs, hle, hge⟩ := Interval.search_spec 39 d.start hsome
  have hb := start_bounds hd
  have hc := Interval.contains_of_onGrid? hden hs
  have he : d.shortest = d.interval.search (39 + 1) d.start := rfl
  rw [← he] at hc hle hge
  refine ⟨hc, Nat.pos_of_ne_zero fun hz => ?_, by omega, by omega⟩
  have hpos : (0 : ℚ) < d.interval.low * ((d.interval.num : ℚ) / d.interval.den) := by
    have : (0 : ℚ) < d.interval.low := by exact_mod_cast hlow.1
    rw [unit_interval]
    positivity
  have hv := hc.bounds.1
  rw [hz, Nat.cast_zero, zero_mul] at hv
  exact absurd hv (not_le.2 hpos)

end Dyadic

theorem digitsValue_eq (cs : List Char) : digitsValue cs = Nat.ofDigitChars 10 cs 0 := rfl

theorem digitsValue_append_zeros (cs : List Char) (k : Nat) :
    digitsValue (cs ++ List.replicate k '0') = digitsValue cs * 10 ^ k := by
  rw [digitsValue_eq, Nat.ofDigitChars_append, Nat.ofDigitChars_replicate_zero]
  rw [digitsValue_eq, Nat.mul_comm]

theorem digitsValue_zeros_append (cs : List Char) (k : Nat) :
    digitsValue (List.replicate k '0' ++ cs) = digitsValue cs := by
  rw [digitsValue_eq, Nat.ofDigitChars_append, Nat.ofDigitChars_replicate_zero, Nat.mul_zero]
  rfl

theorem digits_toDigits (n : Nat) : Digits (Nat.toDigits 10 n) :=
  ⟨Nat.toDigits_ne_nil, fun _ hc => Nat.isDigit_of_mem_toDigits (by decide) (by decide) hc⟩

/-- A decimal with a fraction is written with a digit before the point at least, and with as many
after it as its exponent says. -/
theorem Decimal.text_fraction (d : Decimal) (he : d.exponent < 0) :
    ∃ whole fraction : List Char, Digits whole ∧ Digits fraction ∧
      fraction.length = (-d.exponent).toNat ∧ digitsValue (whole ++ fraction) = d.digits ∧
      d.text.toList = whole ++ '.' :: fraction := by
  let places := (-d.exponent).toNat
  let digits := Nat.toDigits 10 d.digits
  let padded := List.replicate (places + 1 - digits.length) '0' ++ digits
  have hplaces : 0 < places := by omega
  have hlen : places + 1 ≤ padded.length := by
    simp only [padded, List.length_append, List.length_replicate]
    omega
  have hdigit : ∀ c ∈ padded, c.isDigit = true := by
    intro c hc
    rcases List.mem_append.1 hc with hc | hc
    · rw [List.eq_of_mem_replicate hc]
      rfl
    · exact (digits_toDigits d.digits).2 c hc
  refine ⟨padded.take (padded.length - places), padded.drop (padded.length - places),
    ⟨?_, ?_⟩, ⟨?_, ?_⟩, ?_, ?_, ?_⟩
  · exact List.ne_nil_of_length_pos (by rw [List.length_take]; omega)
  · exact fun c hc => hdigit c (List.mem_of_mem_take hc)
  · exact List.ne_nil_of_length_pos (by rw [List.length_drop]; omega)
  · exact fun c hc => hdigit c (List.mem_of_mem_drop hc)
  · rw [List.length_drop]
    omega
  · rw [List.take_append_drop, digitsValue_zeros_append]
    exact Nat.ofDigitChars_ten_toDigits
  · unfold text
    rw [if_neg (by omega), String.toList_ofList]

theorem Decimal.text_whole (d : Decimal) (he : 0 ≤ d.exponent) :
    Digits d.text.toList ∧ digitsValue d.text.toList = d.digits * 10 ^ d.exponent.toNat := by
  have hdigits := digits_toDigits d.digits
  unfold text
  rw [if_pos he, String.toList_ofList]
  refine ⟨⟨List.append_ne_nil_of_left_ne_nil hdigits.1 _, fun c hc => ?_⟩, ?_⟩
  · rcases List.mem_append.1 hc with hc | hc
    · exact hdigits.2 c hc
    · rw [List.eq_of_mem_replicate hc]
      rfl
  · rw [digitsValue_append_zeros, digitsValue_eq, Nat.ofDigitChars_ten_toDigits]

/-- Positional notation spells the decimal, as a whole number or as one with a fraction. -/
theorem Decimal.spells_text (d : Decimal) (hd : 0 < d.digits) :
    ∃ (n : Nat) (fraction : Bool) (k : Nat), 0 < n ∧ k ≤ (-d.exponent).toNat ∧
      (n : ℚ) * 10 ^ power fraction k = d.digits * 10 ^ d.exponent ∧
      ∀ negative sign, Sign negative sign →
        Spells (sign ++ d.text.toList) (signed negative (Float.ofScientific n fraction k)) := by
  by_cases he : 0 ≤ d.exponent
  · obtain ⟨hdigits, hvalue⟩ := d.text_whole he
    refine ⟨digitsValue d.text.toList, false, 0, ?_, Nat.zero_le _, ?_, ?_⟩
    · rw [hvalue]
      positivity
    · rw [hvalue, power, if_neg (by simp), Nat.cast_zero, zpow_zero, mul_one]
      rw [← Int.toNat_of_nonneg he, zpow_natCast, Int.toNat_natCast]
      push_cast
      rfl
    · exact fun negative sign hs => .whole hs hdigits
  · obtain ⟨whole, fraction, hw, hf, hlen, hvalue, htext⟩ := d.text_fraction (by omega)
    refine ⟨digitsValue (whole ++ fraction), true, fraction.length, ?_, hlen.le, ?_, ?_⟩
    · rwa [hvalue]
    · rw [hvalue, hlen, power, if_pos rfl, show -((-d.exponent).toNat : Int) = d.exponent by omega]
    · intro negative sign hs
      rw [htext]
      exact .fraction hs hw hf

/-- A number is known by its magnitude and its sign. -/
theorem signed_eq {x f : Float} {u : UnpackedFloat} {negative : Bool}
    (hf : f.toModel = Float.Model.pack u) (hu : (Float.Model.pack u).unpack = u)
    (hx : x.toModel.unpack = if negative then u.neg else u) : signed negative f = x := by
  have hm : (signed negative f).toModel = x.toModel := by
    rw [← pack_unpack x.toModel, hx]
    cases negative with
    | true =>
      show Float.Model.pack f.toModel.unpack.neg = Float.Model.pack u.neg
      rw [hf, hu]
    | false => exact hf
  exact congrArg Float.ofModel hm

theorem text_eq {x : Float} {d : Dyadic} (hd : dyadic? x = some d) :
    (text x).toList = (if d.negative then ['-'] else []) ++
      if d.significand = 0 then ['0'] else d.shortest.text.toList := by
  unfold text
  rw [hd]
  dsimp only
  by_cases hz : d.significand = 0 <;> cases d.negative <;> simp [hz]

/-- The text of a finite double spells the same double. -/
theorem spells_text {x : Float} (hx : x.isFinite = true) : Spells (text x).toList x := by
  obtain ⟨d, hd, h⟩ := dyadic?_of_finite hx
  have hsign : Sign d.negative (if d.negative then ['-'] else []) := by
    cases d.negative <;> simp [Sign]
  rw [text_eq hd]
  obtain ⟨hz, hu⟩ | ⟨hc, hu⟩ := h
  · have hf : (Float.ofScientific 0 false 0).toModel = Float.Model.pack (.zero .positive) := by
      decide +kernel
    have hx : signed d.negative (Float.ofScientific 0 false 0) = x :=
      signed_eq hf unpack_packedZero (by
      rw [hu]
      cases d.negative <;> rfl)
    rw [if_pos hz, ← hx]
    have hzero : Digits ['0'] := isDigits_iff.1 rfl
    exact .whole hsign hzero
  · obtain ⟨hv, hpos, hlow, hhigh⟩ := Dyadic.shortest_spec hc
    obtain ⟨n, fraction, k, hn, hk, hvalue, hs⟩ := d.shortest.spells_text hpos
    rw [← hvalue] at hv
    have hf := ofScientific_contains hc hn (by omega) hv
    have hx : signed d.negative (Float.ofScientific n fraction k) = x :=
      signed_eq hf (Dyadic.unpack_pack hc _) (by
      rw [hu]
      cases d.negative <;> rfl)
    rw [if_neg hc.pos.ne', ← hx]
    exact hs d.negative _ hsign

end KLambda.Number
