import KLambda.Proofs.Equality
import KLambda.Proofs.Whole

/-!
Conversions between the host and the guest. What can be told apart on the host's side comes back as
it was, as long as the guest's numbers can hold it. And what is taken from the guest is what it was
there: no number is cut off or wrapped around, and no element of a list is left out.
-/
namespace KLambda

inductive HostType where
  | unit
  | bool
  | int32
  | int64
  | size
  | number
  | string
  | list (item : HostType)

namespace HostType

/-- The values of a type on the host's side. -/
def Carrier : HostType → Type
  | unit => Unit
  | bool => Bool
  | int32 => Int32
  | int64 => Int64
  | size => UInt64
  | number => Float
  | string => String
  | list item => List item.Carrier

instance instToGuest : (t : HostType) → ToGuest t.Carrier
  | unit => inferInstanceAs (ToGuest Unit)
  | bool => inferInstanceAs (ToGuest Bool)
  | int32 => inferInstanceAs (ToGuest Int32)
  | int64 => inferInstanceAs (ToGuest Int64)
  | size => inferInstanceAs (ToGuest UInt64)
  | number => inferInstanceAs (ToGuest Float)
  | string => inferInstanceAs (ToGuest String)
  | list item =>
    have := instToGuest item
    inferInstanceAs (ToGuest (List item.Carrier))

instance instOfGuest : (t : HostType) → OfGuest t.Carrier
  | unit => inferInstanceAs (OfGuest Unit)
  | bool => inferInstanceAs (OfGuest Bool)
  | int32 => inferInstanceAs (OfGuest Int32)
  | int64 => inferInstanceAs (OfGuest Int64)
  | size => inferInstanceAs (OfGuest UInt64)
  | number => inferInstanceAs (OfGuest Float)
  | string => inferInstanceAs (OfGuest String)
  | list item =>
    have := instOfGuest item
    inferInstanceAs (OfGuest (List item.Carrier))

/-- No integers of 64 bits are in it, which the guest's numbers cannot all hold. -/
def isExact : HostType → Bool
  | int64 | size => false
  | list item => item.isExact
  | _ => true

end HostType

section

variable (α : Type) [ToGuest α] [OfGuest α]

/-- What is handed to the guest comes back. -/
def RoundTrips : Prop :=
  ∀ (x : α) (h : Heap), ofGuest (toGuest x h).1 = .ok x

/-- What is taken from the guest is what it was there. -/
def Faithful : Prop :=
  ∀ (g h : Heap) (v : Value) (x : α) (below : Nat → Nat → Bool), v.NaNFree g →
    ofGuest v = .ok x → Value.equateWith below (toGuest x h).1 v = true

end

namespace Value

variable {v : Value} {i : Int}

theorem fitsWord_iff {bits : Nat} : fitsWord bits i = true ↔
    -(2 ^ (bits - 1) : Int) ≤ i ∧ i < 2 ^ (bits - 1) := by
  simp [fitsWord]

theorem toInteger_eq_ok_iff : v.toInteger = .ok i ↔
    ∃ x, v = .number x ∧ Number.value? x = some (i : ℚ) ∧ -2 ^ 63 ≤ i ∧ i < 2 ^ 63 := by
  cases v with
  | number x =>
    simp only [toInteger, number.injEq, exists_eq_left']
    rw [← Number.toInt?_eq_some_iff]
    cases Number.toInt? x with
    | none => simp [mismatch]
    | some j =>
      by_cases hj : fitsWord 64 j = true
      · have hj' := fitsWord_iff.1 hj
        simp only [hj, if_true, Except.ok.injEq, Option.some_inj]
        constructor
        · rintro rfl
          exact ⟨rfl, hj'⟩
        · exact And.left
      · have hj' := mt fitsWord_iff.2 hj
        simp only [hj, mismatch, Option.some_inj]
        refine iff_of_false (by simp) ?_
        rintro ⟨rfl, h⟩
        exact hj' h
  | _ => simp [toInteger, mismatch]

end Value

section

variable {v : Value} {h : Heap}

theorem Int64.ofGuest_eq_ok_iff {n : Int64} :
    (ofGuest v : Except Error Int64) = .ok n ↔ v.toInteger = .ok n.toInt := by
  refine bind_eq_ok_iff.trans ⟨?_, fun hv => ⟨n.toInt, hv, ?_⟩⟩
  · rintro ⟨i, hv, hi⟩
    obtain ⟨x, -, -, hlow, hhigh⟩ := Value.toInteger_eq_ok_iff.1 hv
    rw [hv, ← Except.ok.inj hi, Int64.toInt_ofInt_of_le hlow hhigh]
  · exact congrArg Except.ok (Int64.ofInt_toInt n)

theorem Int32.ofGuest_eq_ok_iff {n : Int32} :
    (ofGuest v : Except Error Int32) = .ok n ↔ v.toInteger = .ok n.toInt := by
  refine bind_eq_ok_iff.trans ⟨?_, fun hv => ⟨n.toInt, hv, ?_⟩⟩
  · rintro ⟨i, hv, hi⟩
    split at hi
    · rename_i hfits
      obtain ⟨hlow, hhigh⟩ := Value.fitsWord_iff.1 hfits
      rw [hv, ← Except.ok.inj hi, Int32.toInt_ofInt_of_le hlow hhigh]
    · cases hi
  · rw [if_pos (Value.fitsWord_iff.2 ⟨n.le_toInt, n.toInt_lt⟩)]
    exact congrArg Except.ok (Int32.ofInt_toInt n)

theorem UInt64.ofGuest_eq_ok_iff {n : UInt64} :
    (ofGuest v : Except Error UInt64) = .ok n ↔ v.toInteger = .ok (n.toNat : Int) := by
  refine bind_eq_ok_iff.trans ⟨?_, fun hv => ⟨n.toNat, hv, ?_⟩⟩
  · rintro ⟨i, hv, hi⟩
    obtain ⟨x, -, -, -, hhigh⟩ := Value.toInteger_eq_ok_iff.1 hv
    split at hi
    · have hlt : i.toNat < 2 ^ 64 := by omega
      rw [hv, ← Except.ok.inj hi, UInt64.toNat_ofNat_of_lt' hlt, Int.toNat_of_nonneg ‹0 ≤ i›]
    · cases hi
  · rw [if_pos (Int.natCast_nonneg _), Int.toNat_natCast]
    exact congrArg Except.ok UInt64.ofNat_toNat

/-- An integer comes back exactly if it is the value of a double. -/
theorem toInteger_ofInt {i : Int} (hlt : i.natAbs < 2 ^ 64) :
    (Value.number (Number.ofInt i)).toInteger = .ok i ↔
      (∃ x, Number.value? x = some (i : ℚ)) ∧ -2 ^ 63 ≤ i ∧ i < 2 ^ 63 := by
  rw [Value.toInteger_eq_ok_iff, ← Number.value?_ofInt hlt]
  simp

theorem toFloat_eq_ofInt (n : UInt64) : n.toFloat = Number.ofInt n.toNat := by
  simp [Number.ofInt, Number.signed]

theorem Int64.ofGuest_toGuest (n : Int64) (h : Heap) :
    (ofGuest (toGuest n h).1 : Except Error Int64) = .ok n ↔
      ∃ x, Number.value? x = some (n.toInt : ℚ) := by
  have hlow := n.le_toInt
  have hhigh := n.toInt_lt
  rw [Int64.ofGuest_eq_ok_iff]
  exact (toInteger_ofInt (by omega)).trans (and_iff_left ⟨hlow, hhigh⟩)

theorem UInt64.ofGuest_toGuest (n : UInt64) (h : Heap) :
    (ofGuest (toGuest n h).1 : Except Error UInt64) = .ok n ↔
      (∃ x, Number.value? x = some (n.toNat : ℚ)) ∧ n.toNat < 2 ^ 63 := by
  have hn := n.toNat_lt
  rw [UInt64.ofGuest_eq_ok_iff]
  have hg : (toGuest n h).1 = .number (Number.ofInt n.toNat) := by
    rw [← toFloat_eq_ofInt]
    rfl
  rw [hg, toInteger_ofInt (by omega)]
  simp only [Int.cast_natCast]
  refine and_congr_right fun _ => ?_
  omega

theorem Int32.roundTrips : RoundTrips Int32 := by
  intro n h
  have hlow := n.le_toInt
  have hhigh := n.toInt_lt
  rw [Int32.ofGuest_eq_ok_iff]
  exact (toInteger_ofInt (by omega)).2 ⟨Number.exists_value (by omega), by omega, by omega⟩

theorem Bool.roundTrips : RoundTrips Bool := by
  intro b h
  cases b <;> rfl

theorem Value.items?_cell {m : Nat} {a t : Value} :
    (cons m a t).items? = t.items?.map (a :: ·) := by
  unfold items?
  rw [ending, heads]
  cases t.ending <;> rfl

theorem itemsToGuest_cons {α : Type} [ToGuest α] (a : α) (as : List α) (h : Heap) :
    (itemsToGuest (a :: as) h).1 = .cons (itemsToGuest as (toGuest a h).2).2.marks (toGuest a h).1
      (itemsToGuest as (toGuest a h).2).1 := rfl

/-- The elements of a list come back in order. -/
theorem RoundTrips.list {α : Type} [ToGuest α] [OfGuest α] (hr : RoundTrips α) :
    RoundTrips (List α) := by
  have items (as : List α) (h : Heap) :
      ∃ vs, (itemsToGuest as h).1.items? = some vs ∧ itemsOfGuest vs = .ok as := by
    induction as generalizing h with
    | nil => exact ⟨[], rfl, rfl⟩
    | cons a as ih =>
      obtain ⟨vs, hvs, has⟩ := ih (toGuest a h).2
      refine ⟨(toGuest a h).1 :: vs, ?_, ?_⟩
      · rw [itemsToGuest_cons, Value.items?_cell, hvs]
        rfl
      · rw [itemsOfGuest, hr a h, has]
        rfl
  intro as h
  obtain ⟨vs, hvs, has⟩ := items as h
  simp only [ofGuest, toGuest, hvs, has]

theorem HostType.roundTrips (t : HostType) (ht : t.isExact = true) : RoundTrips t.Carrier := by
  induction t with
  | unit => exact fun _ _ => rfl
  | bool => exact Bool.roundTrips
  | int32 => exact Int32.roundTrips
  | int64 | size => cases ht
  | number => exact fun _ _ => rfl
  | string => exact fun _ _ => rfl
  | list item ih => exact (ih ht).list

theorem Value.NaNFree.head {m : Nat} {a t : Value} (hv : (cons m a t).NaNFree h) : a.NaNFree h :=
  hv.of_occurs (.head .here)

theorem Value.NaNFree.tail {m : Nat} {a t : Value} (hv : (cons m a t).NaNFree h) : t.NaNFree h :=
  hv.of_occurs (.tail .here)

theorem Unit.faithful : Faithful Unit := by
  intro g h v x below _ hx
  cases v <;> first | rfl | cases hx

theorem Bool.faithful : Faithful Bool := by
  intro g h v b below _ hx
  obtain rfl : v = .bool b := Value.toBool_eq_ok_iff.1 hx
  exact beq_self_eq_true _

theorem Float.faithful : Faithful Float := by
  intro g h v x below hv hx
  cases v with
  | number y =>
    cases hx
    have hn : x.isNaN = false := hv x .here
    exact Float.beq_self_iff.2 (by simpa using hn)
  | _ => cases hx

theorem String.faithful : Faithful String := by
  intro g h v s below _ hx
  cases v with
  | str t =>
    cases hx
    exact beq_self_eq_true s
  | _ => cases hx

/-- An integer that is taken from the guest becomes an equal number again. -/
theorem equateWith_ofInt {i : Int} (hv : v.toInteger = .ok i) (below : Nat → Nat → Bool) :
    Value.equateWith below (.number (Number.ofInt i)) v = true := by
  obtain ⟨x, rfl, hx, hlow, hhigh⟩ := Value.toInteger_eq_ok_iff.1 hv
  exact Number.ofInt_beq (by omega) hx

theorem Int64.faithful : Faithful Int64 :=
  fun _ _ _ _ below _ hx => equateWith_ofInt (Int64.ofGuest_eq_ok_iff.1 hx) below

theorem Int32.faithful : Faithful Int32 :=
  fun _ _ _ _ below _ hx => equateWith_ofInt (Int32.ofGuest_eq_ok_iff.1 hx) below

theorem UInt64.faithful : Faithful UInt64 := by
  intro g h v n below _ hx
  have he := equateWith_ofInt (UInt64.ofGuest_eq_ok_iff.1 hx) below
  rwa [← toFloat_eq_ofInt] at he

/-- Every element of a list is taken, and no improper end is. -/
theorem Faithful.list {α : Type} [ToGuest α] [OfGuest α] (hf : Faithful α) :
    Faithful (List α) := by
  have items (g : Heap) (below : Nat → Nat → Bool) (v : Value) (hv : v.NaNFree g) (vs : List Value)
      (hvs : v.items? = some vs) (as : List α) (has : itemsOfGuest vs = .ok as) (h : Heap) :
      Value.equateWith below (itemsToGuest as h).1 v = true := by
    induction v generalizing vs as h with
    | empty =>
      cases hvs
      cases has
      rfl
    | cons m a t iha iht =>
      rw [Value.items?_cell] at hvs
      cases ht : t.items? with
      | none => simp [ht] at hvs
      | some us =>
        obtain rfl : a :: us = vs := by simpa [ht] using hvs
        obtain ⟨b, hb, has⟩ := bind_eq_ok_iff.1 has
        obtain ⟨bs, hbs, has⟩ := bind_eq_ok_iff.1 has
        cases has
        rw [itemsToGuest_cons, Value.equateWith, hf g h a b below hv.head hb,
          iht hv.tail us ht bs hbs (toGuest b h).2]
        simp
    | _ => cases hvs
  intro g h v as below hv hx
  cases hvs : v.items? with
  | none => simp [ofGuest, hvs, Value.mismatch] at hx
  | some vs =>
    simp only [ofGuest, hvs] at hx
    exact items g below v hv vs hvs as hx h

theorem HostType.faithful (t : HostType) : Faithful t.Carrier := by
  induction t with
  | unit => exact Unit.faithful
  | bool => exact Bool.faithful
  | int32 => exact Int32.faithful
  | int64 => exact Int64.faithful
  | size => exact UInt64.faithful
  | number => exact Float.faithful
  | string => exact String.faithful
  | list item ih => exact ih.list

end

/-- How deep vectors may be nested makes no difference where there are none. -/
theorem Faithful.equate {α : Type} [ToGuest α] [OfGuest α] (hf : Faithful α) {h : Heap} {v : Value}
    {x : α} (hv : v.NaNFree h) (hx : ofGuest v = .ok x) :
    (toGuest x h).2.equate (toGuest x h).1 v = true := by
  unfold Heap.equate
  cases (toGuest x h).2.vectors.size <;> exact hf h h v x _ hv hx

/-- Conversion to the guest and back is the identity, for lists nested to any depth too, except that
an integer of 64 bits comes back exactly if a double has its value, and if it fits a signed word.
And conversion from the guest and back gives an equal value. -/
theorem conversions_exact :
    (∀ t : HostType, t.isExact = true → RoundTrips t.Carrier) ∧
      (∀ (n : Int64) (h : Heap), (ofGuest (toGuest n h).1 : Except Error Int64) = .ok n ↔
        ∃ x, Number.value? x = some (n.toInt : ℚ)) ∧
      (∀ (n : UInt64) (h : Heap), (ofGuest (toGuest n h).1 : Except Error UInt64) = .ok n ↔
        (∃ x, Number.value? x = some (n.toNat : ℚ)) ∧ n.toNat < 2 ^ 63) ∧
      ∀ (t : HostType) (h : Heap) (v : Value) (x : t.Carrier), v.NaNFree h → ofGuest v = .ok x →
        (toGuest x h).2.equate (toGuest x h).1 v = true :=
  ⟨HostType.roundTrips, Int64.ofGuest_toGuest, UInt64.ofGuest_toGuest,
    fun t _ _ _ hv hx => t.faithful.equate hv hx⟩

/-- Nested lists come back as they were, and a list of negative zero is taken as a list of the
integer zero, which becomes an equal list. -/
theorem conversions_exact_nested :
    let nested : List (List Bool) := [[true], []]
    let v : Value := .cons 0 (.number (-0)) .empty
    let zeros : List Int64 := [0]
    ofGuest (toGuest nested .empty).1 = .ok nested ∧ ofGuest v = .ok zeros ∧
      (toGuest zeros .empty).2.equate (toGuest zeros .empty).1 v = true := by
  intro nested v zeros
  have hv : (Value.cons 0 (.number (-0)) .empty).NaNFree .empty := by
    intro x hx
    cases hx with
    | head ho =>
      cases ho
      decide +kernel
    | tail ho => cases ho
  have hn : Value.toInteger (.number (-0)) = .ok (0 : Int64).toInt := by
    have hi : Number.toInt? (-0) = some 0 := by decide +kernel
    simp [Value.toInteger, hi, fitsWord]
  have hz : ofGuest v = .ok zeros := by
    show itemsOfGuest [.number (-0)] = _
    rw [itemsOfGuest, Int64.ofGuest_eq_ok_iff.2 hn]
    rfl
  exact ⟨conversions_exact.1 (.list (.list .bool)) rfl nested .empty, hz,
    conversions_exact.2.2.2 (.list .int64) .empty v zeros hv hz⟩

end KLambda
