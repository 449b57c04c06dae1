import KLambda.Primitive.Call
import KLambda.Proofs.Equality
import KLambda.Proofs.Whole

/-!
Strings as sequences of characters. The primitives on strings agree about what the characters of a
string are: a position is a whole number below the length, a string is its first character and the
rest, the characters of two strings in a row are those of the first and then those of the second,
and a character and its code stand for each other.
-/
namespace KLambda

open Number (value?)

namespace Value

variable {v : Value} {x : Float} {j : Int} {k n : Nat}

theorem toIndex_of_value (hx : value? x = some (j : ℚ)) (n : Nat) :
    (number x).toIndex n =
      if 0 ≤ j ∧ j < n then .ok j.toNat else .error (.indexOutOfRange x n) := by
  simp only [toIndex, Number.toInt?_eq_some_iff.2 hx]

theorem toIndex_of_not_whole (hx : ∀ j : Int, value? x ≠ some (j : ℚ)) (n : Nat) :
    (number x).toIndex n = (number x).mismatch "integer" := by
  simp only [toIndex, Number.toInt?_eq_none hx]

theorem toIndex_of_not_number (hv : v.kind ≠ .number) (n : Nat) :
    v.toIndex n = v.mismatch "number" := by
  cases v <;> first | rfl | exact absurd rfl hv

theorem toIndex_eq_ok_iff :
    v.toIndex n = .ok k ↔ ∃ x, v = .number x ∧ value? x = some (k : ℚ) ∧ k < n := by
  by_cases hv : v.kind = .number
  · obtain ⟨x, rfl⟩ : ∃ x, v = .number x := by
      cases v <;> first | exact ⟨_, rfl⟩ | cases hv
    simp only [number.injEq, exists_eq_left']
    by_cases hx : ∃ j : Int, value? x = some (j : ℚ)
    · obtain ⟨j, hx⟩ := hx
      rw [toIndex_of_value hx, hx, Option.some_inj]
      have hcast : (j : ℚ) = k ↔ j = k := by norm_cast
      rw [hcast]
      split
      · rw [Except.ok.injEq]
        omega
      · refine iff_of_false (by simp) ?_
        omega
    · rw [not_exists] at hx
      rw [toIndex_of_not_whole hx]
      refine iff_of_false (by simp [mismatch]) fun h => hx k ?_
      simpa using h.1
  · rw [toIndex_of_not_number hv]
    refine iff_of_false (by simp [mismatch]) ?_
    rintro ⟨x, rfl, -⟩
    exact hv rfl

theorem toSize_eq_ok_iff :
    v.toSize = .ok n ↔ ∃ x, v = .number x ∧ value? x = some (n : ℚ) ∧ n < 2 ^ 64 := by
  cases v with
  | number x =>
    simp only [number.injEq, exists_eq_left', toSize]
    have hlimit : wordLimit = 2 ^ 64 := rfl
    by_cases hx : ∃ j : Int, value? x = some (j : ℚ)
    · obtain ⟨j, hx⟩ := hx
      have hcast : (j : ℚ) = n ↔ j = n := by norm_cast
      rw [Number.toInt?_eq_some_iff.2 hx, hx, Option.some_inj, hcast, Option.bind_some, size?,
        hlimit]
      split <;> rename_i hj <;> split at hj
      · obtain rfl := Option.some.inj hj
        rw [Except.ok.injEq]
        omega
      · cases hj
      · cases hj
      · refine iff_of_false (by simp [mismatch]) ?_
        omega
    · rw [not_exists] at hx
      rw [Number.toInt?_eq_none hx]
      refine iff_of_false (by simp [mismatch]) fun h => hx n ?_
      simpa using h.1
  | _ => simp [toSize, mismatch]

end Value

namespace Primitive

variable {s t : String} {i r : Value} {x y : Float} {k : Nat} {c : Char}

theorem call_pos (s i : Value) (w : World) : call .pos [s, i] w = (characterAt s i, w) := rfl

theorem call_cn (s t : String) (w : World) :
    call .cn [.str s, .str t] w = (.ok (.str (s ++ t)), w) := rfl

theorem call_nToString (n : Value) (w : World) :
    call .nToString [n] w = (characterOf n, w) := rfl

theorem call_tlstr (hs : s.toList = c :: t.toList) (w : World) :
    call .tlstr [.str s] w = (.ok (.str t), w) := by
  have hn : nonEmpty (.str s) = .ok (c, t.toList) := by
    simp only [nonEmpty, Value.toStr, hs, bind, Except.bind]
  show ((nonEmpty (.str s)).bind _, w) = _
  rw [hn]
  exact congrArg (fun u => (Except.ok (Value.str u), w)) String.ofList_toList

theorem call_stringToN (hs : s.toList = c :: t.toList) (w : World) :
    call .stringToN [.str s] w = (.ok (.number (Float.ofNat c.toNat)), w) := by
  have hn : nonEmpty (.str s) = .ok (c, t.toList) := by
    simp only [nonEmpty, Value.toStr, hs, bind, Except.bind]
  show ((nonEmpty (.str s)).bind _, w) = _
  rw [hn]
  rfl

theorem call_equal_number (x y : Float) (w : World) :
    call .equal [.number x, .number y] w = (.ok (.bool (x == y)), w) := by
  have he : w.heap.equate (.number x) (.number y) = (x == y) := by
    unfold Heap.equate
    cases w.heap.vectors.size <;> rfl
  exact congrArg (fun b => (Except.ok (Value.bool b), w)) he

theorem characterAt_of_error {e : Error} (h : i.toIndex s.length = .error e) :
    characterAt (.str s) i = .error e := by
  simp only [characterAt, Value.toStr, String.length_toList, h, bind, Except.bind]

theorem characterAt_of_value (hx : value? x = some (k : ℚ)) (hc : s.toList[k]? = some c) :
    characterAt (.str s) (.number x) = .ok (character c) := by
  have hk : k < s.length := by
    rw [← String.length_toList]
    exact (List.getElem?_eq_some_iff.1 hc).1
  have hi : (Value.number x).toIndex s.length = .ok k := Value.toIndex_eq_ok_iff.2 ⟨x, rfl, hx, hk⟩
  simp only [characterAt, Value.toStr, String.length_toList, hi, hc, bind, Except.bind]

theorem characterAt_eq_ok_iff : characterAt (.str s) i = .ok r ↔
    ∃ x k c, i = .number x ∧ value? x = some ((k : Nat) : ℚ) ∧ s.toList[k]? = some c ∧
      r = character c := by
  constructor
  · intro h
    obtain ⟨_, ht, hi⟩ := bind_eq_ok_iff.1 h
    cases ht
    obtain ⟨k, hi, -⟩ := bind_eq_ok_iff.1 hi
    obtain ⟨x, rfl, hx, hk⟩ := Value.toIndex_eq_ok_iff.1 hi
    have hc := List.getElem?_eq_getElem hk
    rw [characterAt_of_value hx hc] at h
    exact ⟨x, k, _, rfl, hx, hc, (Except.ok.inj h).symm⟩
  · rintro ⟨x, k, c, rfl, hx, hc, rfl⟩
    exact characterAt_of_value hx hc

theorem toNat_lt (c : Char) : c.toNat < 2 ^ 32 := c.val.toNat_lt

theorem characterOf_eq_ok_iff : characterOf i = .ok r ↔
    ∃ x c, i = .number x ∧ value? x = some ((Char.toNat c : Nat) : ℚ) ∧ r = character c := by
  constructor
  · intro h
    obtain ⟨n, hn, h⟩ := bind_eq_ok_iff.1 h
    obtain ⟨x, rfl, hx, -⟩ := Value.toSize_eq_ok_iff.1 hn
    split at h
    · rename_i hvalid
      have hcode : (Char.ofNat n).toNat = n := by
        rw [Char.ofNat, dif_pos hvalid]
        rfl
      exact ⟨x, Char.ofNat n, rfl, by rw [hx, hcode], (Except.ok.inj h).symm⟩
    · cases h
  · rintro ⟨x, c, rfl, hx, rfl⟩
    have hvalid : c.toNat.isValidChar := c.valid
    have hn : (Value.number x).toSize = .ok c.toNat :=
      Value.toSize_eq_ok_iff.2 ⟨x, rfl, hx, (toNat_lt c).trans (by decide)⟩
    refine bind_eq_ok_iff.2 ⟨_, hn, ?_⟩
    rw [if_pos hvalid, Char.ofNat_toNat]

theorem characterOf_ofNat (c : Char) :
    characterOf (.number (Float.ofNat c.toNat)) = .ok (character c) :=
  characterOf_eq_ok_iff.2
    ⟨_, c, rfl, Number.value?_ofNat ((toNat_lt c).trans (by decide)), rfl⟩

/-- The double of a character's code is equal to every number that is the code. -/
theorem ofNat_beq (hx : value? x = some (c.toNat : ℚ)) : (Float.ofNat c.toNat == x) = true := by
  have hc := toNat_lt c
  have hlt : (c.toNat : Int).natAbs < 2 ^ 64 := by omega
  have hy := Number.value?_ofNat (n := c.toNat) (hc.trans (by decide))
  have h₁ := Number.ofInt_beq (i := c.toNat) hlt (by simpa using hy)
  have h₂ := Number.ofInt_beq (i := c.toNat) hlt (by simpa using hx)
  exact Heap.Same.beq_trans (Heap.Same.beq_symm h₁) h₂

/-- Positions of the same character give the same. -/
theorem characterAt_congr {m : Nat} (hx : value? x = some (k : ℚ)) (hy : value? y = some (m : ℚ))
    (hk : k < s.length) (h : s.toList[k]? = t.toList[m]?) :
    characterAt (.str s) (.number x) = characterAt (.str t) (.number y) := by
  rw [← String.length_toList] at hk
  have hc := List.getElem?_eq_getElem hk
  rw [characterAt_of_value hx hc, characterAt_of_value hy (h.symm.trans hc)]

theorem exists_first_rest (hs : s ≠ "") : ∃ c t, s.toList = c :: String.toList t := by
  cases hl : s.toList with
  | nil => exact absurd (String.toList_eq_nil_iff.1 hl) hs
  | cons c cs => exact ⟨c, String.ofList cs, by rw [String.toList_ofList]⟩

theorem characterAt_rest (ht : s.toList = c :: t.toList) (hx : value? x = some (k : ℚ))
    (hy : value? y = some ((k + 1 : Nat) : ℚ)) (hk : k + 1 < s.length) :
    characterAt (.str t) (.number x) = characterAt (.str s) (.number y) := by
  have hlen : s.length = t.length + 1 := by
    rw [← String.length_toList, ht, List.length_cons, String.length_toList]
  exact characterAt_congr hx hy (by omega) (by rw [ht, List.getElem?_cons_succ])

theorem characterAt_append_left (hx : value? x = some (k : ℚ)) (hk : k < s.length) :
    characterAt (.str (s ++ t)) (.number x) = characterAt (.str s) (.number x) := by
  have hk' : k < s.toList.length := by rwa [String.length_toList]
  refine (characterAt_congr hx hx hk ?_).symm
  rw [String.toList_append, List.getElem?_append_left hk']

theorem characterAt_append_right (hx : value? x = some (k : ℚ))
    (hy : value? y = some ((k - s.length : Nat) : ℚ)) (hle : s.length ≤ k)
    (hk : k < s.length + t.length) :
    characterAt (.str (s ++ t)) (.number x) = characterAt (.str t) (.number y) := by
  have hle' : s.toList.length ≤ k := by rwa [String.length_toList]
  refine characterAt_congr hx hy (by rwa [String.length_append]) ?_
  rw [String.toList_append, List.getElem?_append_right hle', String.length_toList]

/-- The primitives on strings agree about the characters. A position is a whole number below the
length. What is not empty is its first character and the rest, whose positions are one less. Two
strings in a row have the positions of the first and then those of the second. Exactly the numbers
that are codes of characters become characters, and these have the same codes again. -/
theorem characters_exact (s : String) (w : World) :
    (∀ i r, call .pos [.str s, i] w = (.ok r, w) ↔ ∃ x k c, i = .number x ∧
      value? x = some ((k : Nat) : ℚ) ∧ s.toList[k]? = some c ∧ r = character c) ∧
    (∀ x (j : Int), value? x = some (j : ℚ) → ¬(0 ≤ j ∧ j < s.length) →
      call .pos [.str s, .number x] w = (.error (.indexOutOfRange x s.length), w)) ∧
    (∀ x, (∀ j : Int, value? x ≠ some (j : ℚ)) → call .pos [.str s, .number x] w =
      (.error (.typeMismatch "integer" (Value.number x).text), w)) ∧
    (∀ i : Value, i.kind ≠ .number →
      call .pos [.str s, i] w = (.error (.typeMismatch "number" i.text), w)) ∧
    (s ≠ "" → ∃ c u n, call .pos [.str s, .number 0] w = (.ok c, w) ∧
      call .tlstr [.str s] w = (.ok u, w) ∧ call .cn [c, u] w = (.ok (.str s), w) ∧
      (∀ x y (k : Nat), value? x = some (k : ℚ) → value? y = some ((k + 1 : Nat) : ℚ) →
        k + 1 < s.length → call .pos [u, .number x] w = call .pos [.str s, .number y] w) ∧
      call .stringToN [.str s] w = (.ok n, w) ∧ call .nToString [n] w = (.ok c, w)) ∧
    (∀ t : String, ∃ u, call .cn [.str s, .str t] w = (.ok u, w) ∧
      ∀ x (k : Nat), value? x = some (k : ℚ) → k < s.length + t.length →
        (k < s.length → call .pos [u, .number x] w = call .pos [.str s, .number x] w) ∧
        ∀ y, s.length ≤ k → value? y = some ((k - s.length : Nat) : ℚ) →
          call .pos [u, .number x] w = call .pos [.str t, .number y] w) ∧
    (∀ n r, call .nToString [n] w = (.ok r, w) ↔
      ∃ x c, n = .number x ∧ value? x = some ((Char.toNat c : Nat) : ℚ) ∧ r = character c) ∧
    ∀ x (c : Char), value? x = some (c.toNat : ℚ) → ∃ m,
      call .stringToN [character c] w = (.ok m, w) ∧
      call .equal [m, .number x] w = (.ok (.bool true), w) := by
  refine ⟨fun i r => ?_, fun x j hx hj => ?_, fun x hx => ?_, fun i hi => ?_, fun hs => ?_,
    fun t => ?_, fun n r => ?_, fun x c hx => ?_⟩
  · rw [call_pos, Prod.mk.injEq, and_iff_left rfl]
    exact characterAt_eq_ok_iff
  · rw [call_pos, characterAt_of_error ((Value.toIndex_of_value hx _).trans (if_neg hj))]
  · rw [call_pos, characterAt_of_error (Value.toIndex_of_not_whole hx _)]
  · rw [call_pos, characterAt_of_error (Value.toIndex_of_not_number hi _)]
  · obtain ⟨c, t, ht⟩ := exists_first_rest hs
    have hfirst : s.toList[0]? = some c := by rw [ht, List.getElem?_cons_zero]
    have happend : String.singleton c ++ t = s := by
      rw [← String.toList_inj, String.toList_append, String.toList_singleton, ht,
        List.singleton_append]
    refine ⟨character c, .str t, _, ?_, call_tlstr ht w, ?_, fun x y k hx hy hk => ?_,
      call_stringToN ht w, ?_⟩
    · rw [call_pos, characterAt_of_value (k := 0) (by simpa using Number.value?_zero) hfirst]
    · rw [character, call_cn, happend]
    · rw [call_pos, call_pos, characterAt_rest ht hx hy hk]
    · rw [call_nToString, characterOf_ofNat]
  · refine ⟨_, call_cn s t w, fun x k hx hk => ⟨fun hlt => ?_, fun y hle hy => ?_⟩⟩
    · rw [call_pos, call_pos, characterAt_append_left hx hlt]
    · rw [call_pos, call_pos, characterAt_append_right hx hy hle hk]
  · rw [call_nToString, Prod.mk.injEq, and_iff_left rfl]
    exact characterOf_eq_ok_iff
  · have hc : (String.singleton c).toList = c :: String.toList "" := String.toList_singleton c
    refine ⟨_, call_stringToN hc w, ?_⟩
    rw [call_equal_number, ofNat_beq hx]

/-- A character that takes two bytes is one character, with its code as its number. -/
theorem characters_exact_accent :
    let w : World := ⟨.empty, .empty, .empty, .empty, {}, 0, #[], 0, 0⟩
    call .pos [.str "né", .number 1] w = (.ok (.str "é"), w) ∧
      call .nToString [.number 233] w = (.ok (.str "é"), w) := by
  intro w
  have hc : Value.str "é" = character 'é' := congrArg Value.str (by decide +kernel)
  obtain ⟨hpos, -, -, -, -, -, hcode, -⟩ := characters_exact "né" w
  exact ⟨(hpos _ _).2 ⟨1, 1, 'é', rfl, by decide +kernel, by decide +kernel, hc⟩,
    (hcode _ _).2 ⟨233, 'é', rfl, by decide +kernel, hc⟩⟩

end Primitive
end KLambda
