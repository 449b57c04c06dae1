import Mathlib
import KLambda.Proofs.Alike
import KLambda.Proofs.Sound

/-!
Equality of values is equality of structure. In a heap where cells of one mark have one content and
no vector reaches itself, two values are equal exactly if they unfold to the same tree. That an
object is taken to be equal to itself without a look inside changes no answer, unless NaN is in it.
-/
namespace KLambda

namespace Heap

/-- What occurs in a value once its vectors are unfolded. -/
inductive Occurs (h : Heap) (u : Value) : Value → Prop
  | here : Occurs h u u
  | head {m : Nat} {a t : Value} (ho : Occurs h u a) : Occurs h u (.cons m a t)
  | tail {m : Nat} {a t : Value} (ho : Occurs h u t) : Occurs h u (.cons m a t)
  | element {i n : Nat} {e : Value} (he : e ∈ h.elements i) (ho : Occurs h u e) :
      Occurs h u (.vector i n)

/-- No vector occurs in one of its own elements. -/
def Acyclic (h : Heap) : Prop :=
  ∀ i n e, e ∈ h.elements i → ¬ h.Occurs (.vector i n) e

/-- Two values unfold to the same tree. What cells and vectors are marked with plays no part. -/
inductive Same (h : Heap) : Value → Value → Prop
  | empty : Same h .empty .empty
  | number {x y : Float} (hx : (x == y) = true) : Same h (.number x) (.number y)
  | str (s : String) : Same h (.str s) (.str s)
  | symbol (s : String) : Same h (.symbol s) (.symbol s)
  | cons {m n : Nat} {a b t u : Value} (ha : Same h a b) (ht : Same h t u) :
      Same h (.cons m a t) (.cons n b u)
  | vector {i j m n : Nat} (hs : (h.elements i).size = (h.elements j).size)
      (he : ∀ (k : Nat) (a b : Value), (h.elements i)[k]? = some a →
        (h.elements j)[k]? = some b → Same h a b) :
      Same h (.vector i m) (.vector j n)
  | function {f g : Function} (hi : f.id = g.id) : Same h (.function f) (.function g)
  | error {m : Nat} {s t : String} : Same h (.error m s) (.error m t)
  | stream {s t : StreamHandle} (hi : s.id = t.id) : Same h (.stream s) (.stream t)

end Heap

/-- What the cells hold, by their marks. -/
abbrev Cells := Nat → Value × Value

/-- A value is held in a heap if its cells have the contents that belong to their marks and its
vectors have the sizes that it says. -/
def Value.Held (h : Heap) (cells : Cells) : Value → Prop
  | .cons m a t => m < h.marks ∧ cells m = (a, t) ∧ a.Held h cells ∧ t.Held h cells
  | .vector i n => i < h.vectors.size ∧ (h.elements i).size = n
  | _ => True

/-- The elements of all vectors are held, whoever refers to these vectors. -/
def Heap.Coherent (h : Heap) (cells : Cells) : Prop :=
  ∀ i, ∀ e ∈ h.elements i, e.Held h cells

/-- No NaN occurs in a value. -/
def Value.NaNFree (h : Heap) (v : Value) : Prop :=
  ∀ x : Float, h.Occurs (.number x) v → x.isNaN = false

/-- A value that is held and has no NaN in it. -/
structure Value.Regular (h : Heap) (cells : Cells) (v : Value) : Prop where
  held : v.Held h cells
  nanFree : v.NaNFree h

variable {h h' : Heap} {cells cells' : Cells} {v w : Value}

/-- When two references are taken for equal without a look at what they refer to. -/
structure Shortcuts where
  cell : Nat → Nat → Bool
  vector : Nat → Nat → Bool

namespace Shortcuts

/-- One and the same object is equal to itself. -/
def identity : Shortcuts := ⟨(· == ·), (· == ·)⟩

/-- Only one and the same object is ever equal to itself. -/
structure Sound (s : Shortcuts) : Prop where
  cell (m n : Nat) : s.cell m n = true → m = n
  vector (i j : Nat) : s.vector i j = true → i = j

theorem identity_sound : identity.Sound where
  cell _ _ := by simp [identity]
  vector _ _ := by simp [identity]

end Shortcuts

/-- The comparison of values with any shortcuts. -/
def Value.compareWith (s : Shortcuts) (below : Nat → Nat → Bool) : Value → Value → Bool
  | .cons m a t, .cons n b u =>
    s.cell m n || (compareWith s below a b && compareWith s below t u)
  | .vector i m, .vector j n => s.vector i j || (m == n && below i j)
  | v, w => v.equateWith below w

namespace Heap

def compareTo (s : Shortcuts) (h : Heap) : Nat → Value → Value → Bool
  | 0 => Value.compareWith s fun _ _ => false
  | depth + 1 => Value.compareWith s fun i j =>
    allPairs (h.compareTo s depth) (h.elements i).toList (h.elements j).toList

def compare (s : Shortcuts) (h : Heap) (v w : Value) : Bool := h.compareTo s h.vectors.size v w

end Heap

theorem Value.compareWith_identity (below : Nat → Nat → Bool) :
    compareWith .identity below = equateWith below := by
  funext v w
  fun_induction compareWith Shortcuts.identity below v w with
  | case1 m a t n b u iha iht => rw [iha, iht]; rfl
  | case2 => rfl
  | case3 => rfl

namespace Heap

theorem compare_identity (h : Heap) : h.compare .identity = h.equate := by
  have hd : ∀ depth, h.compareTo .identity depth = h.equateTo depth := by
    intro depth
    induction depth with
    | zero => exact Value.compareWith_identity _
    | succ depth ih => simp only [compareTo, equateTo, ih, Value.compareWith_identity]
  funext v w
  simp only [compare, equate, hd]

variable {s : Shortcuts} {d : Nat}

theorem compareTo_cons (m n : Nat) (a b t u : Value) :
    h.compareTo s d (.cons m a t) (.cons n b u) =
      (s.cell m n || (h.compareTo s d a b && h.compareTo s d t u)) := by
  cases d <;> rfl

theorem compareTo_vector (i j m n : Nat) :
    h.compareTo s (d + 1) (.vector i m) (.vector j n) =
      (s.vector i j || (m == n &&
        allPairs (h.compareTo s d) (h.elements i).toList (h.elements j).toList)) := rfl

/-- Where there are no two cells and no two vectors to compare, nothing depends on the depth. -/
theorem compareTo_atom (hc : v.kind ≠ .cons) (hv : v.kind ≠ .vector) :
    h.compareTo s d v w = true ↔ h.Same v w := by
  have hb : ∃ below, h.compareTo s d v w = Value.compareWith s below v w := by
    cases d <;> exact ⟨_, rfl⟩
  obtain ⟨below, hb⟩ := hb
  rw [hb]
  constructor
  · intro he
    cases v <;> cases w <;> simp_all [Value.compareWith, Value.equateWith, Value.kind] <;>
      constructor <;> simpa using he
  · intro hs
    cases hs <;> simp_all [Value.compareWith, Value.equateWith, Value.kind]

theorem allPairs_iff {p : Value → Value → Bool} (vs ws : List Value) :
    allPairs p vs ws = true ↔
      vs.length = ws.length ∧
        ∀ (k : Nat) (v w : Value), vs[k]? = some v → ws[k]? = some w → p v w = true := by
  induction vs generalizing ws with
  | nil => cases ws <;> simp [allPairs]
  | cons v vs ih =>
    cases ws with
    | nil => simp [allPairs]
    | cons w ws =>
      rw [allPairs, Bool.and_eq_true, ih]
      constructor
      · rintro ⟨hp, hl, hk⟩
        refine ⟨by simpa using hl, fun k => ?_⟩
        cases k with
        | zero => simpa using hp
        | succ k => simpa using hk k
      · rintro ⟨hl, hk⟩
        exact ⟨hk 0 v w rfl rfl, by simpa using hl, fun k => by simpa using hk (k + 1)⟩

theorem Occurs.trans {u : Value} (huv : h.Occurs u v) (hvw : h.Occurs v w) : h.Occurs u w := by
  induction hvw with
  | here => exact huv
  | head _ ih => exact .head ih
  | tail _ ih => exact .tail ih
  | element he _ ih => exact .element he ih

/-- The vectors of a value are nested at most so deep. -/
inductive Nested (h : Heap) : Nat → Value → Prop
  | atom {d : Nat} {v : Value} (hc : v.kind ≠ .cons) (hv : v.kind ≠ .vector) : Nested h d v
  | cons {d m : Nat} {a t : Value} (ha : Nested h d a) (ht : Nested h d t) :
      Nested h d (.cons m a t)
  | vector {d i n : Nat} (he : ∀ e ∈ h.elements i, Nested h d e) :
      Nested h (d + 1) (.vector i n)

/-- A value occurs in an element of each of these vectors. -/
def Below (h : Heap) (path : Finset Nat) (v : Value) : Prop :=
  ∀ i ∈ path, ∃ e ∈ h.elements i, h.Occurs v e

theorem Below.of_occurs {path : Finset Nat} {u : Value} (hb : h.Below path v)
    (ho : h.Occurs u v) : h.Below path u := by
  intro i hi
  obtain ⟨e, he, hv⟩ := hb i hi
  exact ⟨e, he, ho.trans hv⟩

theorem Below.insert {path : Finset Nat} {i n : Nat} {e : Value}
    (hb : h.Below path (.vector i n)) (he : e ∈ h.elements i) : h.Below (insert i path) e := by
  intro j hj
  rcases Finset.mem_insert.1 hj with rfl | hj
  · exact ⟨e, he, .here⟩
  · exact hb.of_occurs (.element he .here) j hj

/-- The vectors that were entered on the way to another one do not use up all the vectors. -/
theorem Acyclic.card_lt (ha : h.Acyclic) {path : Finset Nat} {i n : Nat}
    (hp : path ⊆ Finset.range h.vectors.size) (hi : i < h.vectors.size)
    (hb : h.Below path (.vector i n)) : i ∉ path ∧ path.card < h.vectors.size := by
  have hn : i ∉ path := by
    intro hm
    obtain ⟨e, he, ho⟩ := hb i hm
    exact ha i n e he ho
  have hs : path ⊂ Finset.range h.vectors.size :=
    ⟨hp, fun hr => hn (hr (Finset.mem_range.2 hi))⟩
  exact ⟨hn, by simpa using Finset.card_lt_card hs⟩

theorem Acyclic.nested_below (ha : h.Acyclic) (hc : h.Coherent cells) (d : Nat)
    (path : Finset Nat) (hp : path ⊆ Finset.range h.vectors.size)
    (hd : h.vectors.size ≤ d + path.card) (hv : v.Held h cells) (hb : h.Below path v) :
    h.Nested d v := by
  induction d using Nat.strong_induction_on generalizing path v with
  | _ d ih =>
    induction v with
    | cons m a t iha iht =>
      obtain ⟨-, -, hva, hvt⟩ := hv
      exact .cons (iha hva (hb.of_occurs (.head .here))) (iht hvt (hb.of_occurs (.tail .here)))
    | vector i n =>
      obtain ⟨hn, hl⟩ := ha.card_lt hp hv.1 hb
      obtain ⟨d, rfl⟩ : ∃ c, d = c + 1 := ⟨d - 1, by omega⟩
      refine .vector fun e he => ih d (by omega) (insert i path) ?_ ?_ (hc i e he) (hb.insert he)
      · exact Finset.insert_subset (Finset.mem_range.2 hv.1) hp
      · rw [Finset.card_insert_of_notMem hn]
        omega
    | _ => exact .atom (by simp [Value.kind]) (by simp [Value.kind])

/-- No chain of vectors is longer than the number of vectors. -/
theorem Acyclic.nested (ha : h.Acyclic) (hc : h.Coherent cells) (hv : v.Held h cells) :
    h.Nested h.vectors.size v :=
  ha.nested_below hc _ ∅ (by simp) (by simp) hv (by simp [Below])

namespace Same

theorem beq_symm {x y : Float} (hx : (x == y) = true) : (y == x) = true := by
  rw [Float.beq_iff_ne_nan_and_eq] at hx ⊢
  obtain ⟨hx, hy, he⟩ := hx
  exact ⟨hy, hx, by tauto⟩

theorem beq_trans {x y z : Float} (hx : (x == y) = true) (hy : (y == z) = true) :
    (x == z) = true := by
  rw [Float.beq_iff_ne_nan_and_eq] at hx hy ⊢
  obtain ⟨hx, -, hxy⟩ := hx
  obtain ⟨-, hz, hyz⟩ := hy
  refine ⟨hx, hz, ?_⟩
  grind

theorem symm (hs : h.Same v w) : h.Same w v := by
  induction hs with
  | empty => exact .empty
  | number hx => exact .number (beq_symm hx)
  | str s => exact .str s
  | symbol s => exact .symbol s
  | cons _ _ iha iht => exact .cons iha iht
  | vector hs _ ih => exact .vector hs.symm fun k a b ha hb => ih k b a hb ha
  | function hi => exact .function hi.symm
  | error => exact .error
  | stream hi => exact .stream hi.symm

theorem trans {u : Value} (huv : h.Same u v) (hvw : h.Same v w) : h.Same u w := by
  induction huv generalizing w with
  | empty => exact hvw
  | number hx => cases hvw with | number hy => exact .number (beq_trans hx hy)
  | str s => exact hvw
  | symbol s => exact hvw
  | cons _ _ iha iht => cases hvw with | cons ha ht => exact .cons (iha ha) (iht ht)
  | vector hs _ ih =>
    cases hvw with
    | vector hs' he' =>
      refine .vector (hs.trans hs') fun k a c ha hc => ?_
      obtain ⟨hk, -⟩ := Array.getElem?_eq_some_iff.1 ha
      have hb := Array.getElem?_eq_getElem (hs ▸ hk)
      exact ih k a _ ha hb (he' k _ c hb hc)
  | function hi => cases hvw with | function hj => exact .function (hi.trans hj)
  | error => cases hvw with | error => exact .error
  | stream hi => cases hvw with | stream hj => exact .stream (hi.trans hj)

end Same

theorem same_cons {m n : Nat} {a b t u : Value} :
    h.Same (.cons m a t) (.cons n b u) ↔ h.Same a b ∧ h.Same t u := by
  constructor
  · intro hs
    cases hs with
    | cons ha ht => exact ⟨ha, ht⟩
  · exact fun hs => .cons hs.1 hs.2

theorem same_vector {i j m n : Nat} :
    h.Same (.vector i m) (.vector j n) ↔ (h.elements i).size = (h.elements j).size ∧
      ∀ (k : Nat) (a b : Value), (h.elements i)[k]? = some a → (h.elements j)[k]? = some b →
        h.Same a b := by
  constructor
  · intro hs
    cases hs with
    | vector hs he => exact ⟨hs, he⟩
  · exact fun hs => .vector hs.1 hs.2

end Heap

namespace Value

theorem NaNFree.of_occurs (hn : w.NaNFree h) (ho : h.Occurs v w) : v.NaNFree h :=
  fun x hx => hn x (hx.trans ho)

theorem Regular.head {m : Nat} {a t : Value} (hr : (cons m a t).Regular h cells) :
    a.Regular h cells := ⟨hr.held.2.2.1, hr.nanFree.of_occurs (.head .here)⟩

theorem Regular.tail {m : Nat} {a t : Value} (hr : (cons m a t).Regular h cells) :
    t.Regular h cells := ⟨hr.held.2.2.2, hr.nanFree.of_occurs (.tail .here)⟩

theorem Regular.element {i n : Nat} {e : Value} (hc : h.Coherent cells)
    (hr : (vector i n).Regular h cells) (he : e ∈ h.elements i) : e.Regular h cells :=
  ⟨hc i e he, hr.nanFree.of_occurs (.element he .here)⟩

end Value

namespace Heap

variable {s : Shortcuts} {d : Nat}

theorem Nested.same_refl (hn : h.Nested d v) (hv : v.NaNFree h) : h.Same v v := by
  induction hn with
  | @atom _ v hc hvec =>
    cases v with
    | number x =>
      have hx : x.isNaN = false := hv x .here
      exact .number (Float.beq_self_iff.2 (by simpa using hx))
    | cons => exact absurd rfl hc
    | vector => exact absurd rfl hvec
    | _ => constructor <;> rfl
  | cons _ _ iha iht =>
    exact .cons (iha (hv.of_occurs (.head .here))) (iht (hv.of_occurs (.tail .here)))
  | @vector _ i _ _ ih =>
    refine .vector rfl fun k a b ha hb => ?_
    obtain rfl : a = b := Option.some.inj (ha.symm.trans hb)
    have he := Array.mem_of_getElem? ha
    exact ih a he (hv.of_occurs (.element he .here))

/-- Whatever shortcuts are taken, comparing deep enough tells whether the structure is the same. -/
theorem compareTo_iff_same (hs : s.Sound) (hc : h.Coherent cells) (hn : h.Nested d v)
    (hv : v.Regular h cells) (hw : w.Held h cells) :
    h.compareTo s d v w = true ↔ h.Same v w := by
  induction hn generalizing w with
  | atom hk hk' => exact compareTo_atom hk hk'
  | @cons d m a t ha ht iha iht =>
    cases w with
    | cons n b u =>
      rw [compareTo_cons, Bool.or_eq_true, Bool.and_eq_true, iha hv.head hw.2.2.1,
        iht hv.tail hw.2.2.2, same_cons]
      refine or_iff_right_of_imp fun hmn => ?_
      -- the same mark belongs to the same content, which is the same as itself
      obtain rfl := hs.cell m n hmn
      obtain ⟨rfl, rfl⟩ := Prod.mk.inj (hv.held.2.1.symm.trans hw.2.1)
      exact ⟨ha.same_refl hv.head.nanFree, ht.same_refl hv.tail.nanFree⟩
    | _ =>
      refine iff_of_false ?_ (by rintro ⟨⟩)
      cases d <;> simp [compareTo, Value.compareWith, Value.equateWith]
  | @vector d i m he ih =>
    cases w with
    | vector j n =>
      have hp : allPairs (h.compareTo s d) (h.elements i).toList (h.elements j).toList = true ↔
          h.Same (.vector i m) (.vector j n) := by
        rw [allPairs_iff, same_vector]
        simp only [Array.length_toList, Array.getElem?_toList]
        refine and_congr_right fun _ => forall₃_congr fun k a b => ?_
        refine forall₂_congr fun ha hb => ?_
        have ha := Array.mem_of_getElem? ha
        exact ih a ha (hv.element hc ha) (hc j b (Array.mem_of_getElem? hb))
      have hmn : (m == n) = true ↔ (h.elements i).size = (h.elements j).size := by
        rw [beq_iff_eq, hv.held.2, hw.2]
      rw [compareTo_vector, Bool.or_eq_true, Bool.and_eq_true, hp, hmn,
        and_iff_right_of_imp fun hs => (same_vector.1 hs).1]
      refine or_iff_right_of_imp fun hij => ?_
      obtain rfl := hs.vector i j hij
      obtain rfl : m = n := hv.held.2.symm.trans hw.2
      exact (Nested.vector he).same_refl hv.nanFree
    | _ =>
      refine iff_of_false ?_ (by rintro ⟨⟩)
      simp [compareTo, Value.compareWith, Value.equateWith]

theorem compare_iff_same (hs : s.Sound) (hc : h.Coherent cells) (ha : h.Acyclic)
    (hv : v.Regular h cells) (hw : w.Held h cells) : h.compare s v w = true ↔ h.Same v w :=
  compareTo_iff_same hs hc (ha.nested hc hv.held) hv hw

end Heap

/-- In a heap where no vector reaches itself, values without NaN are equal exactly if they have the
same structure, and whether objects are recognised by their identity makes no difference to the
answer. So equality is an equivalence, which the primitive `=` decides. -/
theorem equate_structural (hc : h.Coherent cells) (ha : h.Acyclic) :
    (∀ v w : Value, v.Regular h cells → w.Regular h cells →
      (h.equate v w = true ↔ h.Same v w) ∧
      (∀ s : Shortcuts, s.Sound → h.compare s v w = h.equate v w) ∧
      (∀ world : World, world.heap = h →
        ∃ b, Primitive.equal.call [v, w] world = (.ok (.bool b), world) ∧
          (b = true ↔ h.Same v w))) ∧
    (∀ v : Value, v.Regular h cells → h.equate v v = true) ∧
    (∀ v w : Value, v.Regular h cells → w.Regular h cells → h.equate v w = h.equate w v) ∧
    (∀ u v w : Value, u.Regular h cells → v.Regular h cells → w.Regular h cells →
      h.equate u v = true → h.equate v w = true → h.equate u w = true) := by
  have hs : ∀ v w : Value, v.Regular h cells → w.Regular h cells →
      (h.equate v w = true ↔ h.Same v w) := by
    intro v w hv hw
    rw [← Heap.compare_identity]
    exact Heap.compare_iff_same Shortcuts.identity_sound hc ha hv hw.held
  refine ⟨fun v w hv hw => ⟨hs v w hv hw, fun s hsound => ?_, ?_⟩, ?_, ?_, ?_⟩
  · rw [Bool.eq_iff_iff, Heap.compare_iff_same hsound hc ha hv hw.held, hs v w hv hw]
  · rintro world rfl
    exact ⟨world.heap.equate v w, rfl, hs v w hv hw⟩
  · exact fun v hv => (hs v v hv hv).2 ((ha.nested hc hv.held).same_refl hv.nanFree)
  · intro v w hv hw
    rw [Bool.eq_iff_iff, hs v w hv hw, hs w v hw hv]
    exact ⟨.symm, .symm⟩
  · intro u v w hu hv hw huv hvw
    exact (hs u w hu hw).2 (((hs u v hu hv).1 huv).trans ((hs v w hv hw).1 hvw))

/-- Two vectors with the same elements. -/
def twins : Heap :=
  { Heap.empty with vectors := #[#[.number 1, .str "a"], #[.number 1, .str "a"]], marks := 2 }

/-- A list of each of the two vectors. -/
def twinCells : Cells := fun m => (.vector m 2, .empty)

theorem twins_elements {i : Nat} {e : Value} (he : e ∈ twins.elements i) :
    e = .number 1 ∨ e = .str "a" := by
  rcases i with _ | _ | i
  · simpa [twins, Heap.elements] using he
  · simpa [twins, Heap.elements] using he
  · simp [twins, Heap.elements] at he

theorem twins_regular {m : Nat} (hm : m < 2) :
    (Value.cons m (.vector m 2) .empty).Regular twins twinCells := by
  refine ⟨⟨hm, rfl, ?_, trivial⟩, fun x hx => ?_⟩
  · have : m = 0 ∨ m = 1 := by omega
    rcases this with rfl | rfl <;> exact ⟨by decide, rfl⟩
  · cases hx with
    | head hx =>
      cases hx with
      | element he hx =>
        rcases twins_elements he with rfl | rfl
        · cases hx
          rfl
        · cases hx
    | tail hx => cases hx

/-- Lists of different vectors are equal if the vectors' elements are. -/
theorem equate_structural_twins :
    (twins.Coherent twinCells ∧ twins.Acyclic) ∧
      twins.equate (.cons 0 (.vector 0 2) .empty) (.cons 1 (.vector 1 2) .empty) = true := by
  have hc : twins.Coherent twinCells := by
    intro i e he
    rcases twins_elements he with rfl | rfl <;> trivial
  have ha : twins.Acyclic := by
    intro i n e he ho
    rcases twins_elements he with rfl | rfl <;> cases ho
  refine ⟨⟨hc, ha⟩, ?_⟩
  have hs := (equate_structural hc ha).1 _ _ (twins_regular (m := 0) (by decide))
    (twins_regular (m := 1) (by decide))
  refine hs.1.2 (.cons (.vector rfl fun k a b hk hk' => ?_) .empty)
  obtain rfl : a = b := Option.some.inj (hk.symm.trans hk')
  rcases twins_elements (Array.mem_of_getElem? hk) with rfl | rfl
  · exact .number rfl
  · exact .str "a"

end KLambda
